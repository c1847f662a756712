import Mica.Var.Codec

/-!
# Var/WireFormat — what the two encoders emit

`wire` is the byte format itself, as a function of the value alone.  An encoder **emits** a result
(`Emits`) when, from any state, it appends exactly those bytes or fails with exactly that error;
emissions compose (`Emits.bind`).  Both encoders emit `wire`, so the bytes pushed to a sink and the
concatenated segments are the same.
-/

open OrderCode LittleEndian List

namespace Mica

/-! ## The format -/

/-- Concatenate two encodings; the first failure wins. -/
def cat (r r' : Except ValueCodecError Bytes) : Except ValueCodecError Bytes := do
  let a ← r
  let b ← r'
  .ok (a ++ b)

/-- An extended header. -/
def wireHeader (kind : ValueKind) (aux : ℕ) : Except ValueCodecError Bytes :=
  .ok (toLE 8 (extendedHeaderWord kind aux))

section Wire

variable (T : SymbolTable) (options : ValueCodecOptions)

/-- A symbol by id is an inline word; by name, a header and its name. -/
def wireSymbol (kind : ValueKind) (symbol : Symbol) : Except ValueCodecError Bytes :=
  match options.symbolEncoding with
  | .id => .ok (toLE 8 (pack kind.tag symbol.id.toNat))
  | .name =>
    match T.name symbol with
    | none => .error (.unnamedSymbol symbol.id.toNat)
    | some name => do
      let aux ← lenAux (utf8 name).length
      cat (wireHeader kind aux) (.ok (utf8 name))

/-- The column names of a relation. -/
def wireColumns : List Symbol → Except ValueCodecError Bytes
  | [] => .ok []
  | column :: heading => cat (wireSymbol T options .symbol column) (wireColumns heading)

/-- The message of an error, behind its length. -/
def wireMessage : Option String → Except ValueCodecError Bytes
  | some message => do
    let len ← lenWord (utf8 message).length
    cat (.ok (toLE 8 len)) (.ok (utf8 message))
  | none => .ok []

mutual

/-- **The wire format of a value.** -/
def wire : RawValue → Except ValueCodecError Bytes
  | .relation [] [] => .ok (toLE 8 0)
  | .bool b => .ok (toLE 8 (pack ValueKind.bool.tag b.toNat))
  | .int i => .ok (toLE 8 (pack ValueKind.int.tag i.payload))
  | .float f => .ok (toLE 8 (pack ValueKind.float.tag f.bits.toNat))
  | .identity i => .ok (toLE 8 (pack ValueKind.identity.tag i.raw.toNat))
  | .symbol symbol => wireSymbol T options .symbol symbol
  | .errorCode symbol => wireSymbol T options .errorCode symbol
  | .string value => do
    let aux ← lenAux (utf8 value).length
    cat (wireHeader .string aux) (.ok (utf8 value))
  | .bytes value => do
    let aux ← lenAux value.length
    cat (wireHeader .bytes aux) (.ok value)
  | .list values => do
    let aux ← lenAux values.length
    cat (wireHeader .list aux) (wireValues values)
  | .map entries => do
    let aux ← lenAux entries.length
    cat (wireHeader .map aux) (wireEntries entries)
  | .relation heading rows => do
    let aux ← lenAux heading.length
    cat (wireHeader .relation aux) (cat (wireColumns T options heading) (do
      let len ← lenWord rows.length
      cat (.ok (toLE 8 len)) (wireRows rows)))
  | .range start stop =>
    cat (wireHeader .range (rangeFlags stop)) (cat (wire start) (wireOption stop))
  | .error code message value =>
    cat (wireHeader .error (errorFlags message value))
      (cat (wireSymbol T options .errorCode code) (cat (wireMessage message) (wireOption value)))
  | .frob delegate value =>
    cat (wireHeader .frob 0)
      (cat (.ok (toLE 8 (pack ValueKind.identity.tag delegate.raw.toNat))) (wire value))
  | .capability c =>
    if options.allowCapabilities then .ok (toLE 8 (pack ValueKind.capability.tag c.raw.toNat))
    else .error .capabilityNotEncodable
  | .function _ => .error .functionNotEncodable
termination_by structural v => v

def wireValues : List RawValue → Except ValueCodecError Bytes
  | [] => .ok []
  | v :: vs => cat (wire v) (wireValues vs)
termination_by structural vs => vs

def wireEntries : List (RawValue × RawValue) → Except ValueCodecError Bytes
  | [] => .ok []
  | (k, v) :: es => cat (wire k) (cat (wire v) (wireEntries es))
termination_by structural es => es

def wireRows : List (List RawValue) → Except ValueCodecError Bytes
  | [] => .ok []
  | row :: rows => cat (wireValues row) (wireRows rows)
termination_by structural rows => rows

def wireOption : Option RawValue → Except ValueCodecError Bytes
  | none => .ok []
  | some v => wire v
termination_by structural x => x

end

end Wire

/-! ## Taking an encoding apart -/

section Inversion

/-- Two encodings that succeed are put together. -/
theorem cat_eq_ok {r r' : Except ValueCodecError Bytes} {out : Bytes} (h : cat r r' = .ok out) :
    ∃ a b, r = .ok a ∧ r' = .ok b ∧ out = a ++ b := by
  match r, r' with
  | .ok a, .ok b =>
    cases h
    exact ⟨a, b, rfl, rfl, rfl⟩

theorem bind_eq_ok {ε α β : Type} {c : Except ε α} {r : α → Except ε β} {out : β}
    (h : (c >>= r) = .ok out) : ∃ a, c = .ok a ∧ r a = .ok out := by
  match c with
  | .ok a => exact ⟨a, rfl, h⟩

/-- A length in a header has 48 bits. -/
theorem lenAux_eq_ok {n a : ℕ} (h : lenAux n = .ok a) : a = n ∧ n < 2 ^ 48 := by
  unfold lenAux extAuxMask at h
  split at h
  · cases h
    exact ⟨rfl, by omega⟩
  · cases h

/-- A length in a word has 64 bits. -/
theorem lenWord_eq_ok {n a : ℕ} (h : lenWord n = .ok a) : a = n ∧ n < wordLimit := by
  unfold lenWord at h
  split at h
  · next hlt =>
    cases h
    exact ⟨rfl, hlt⟩
  · cases h

/-- A header stands in front. -/
theorem wireHeader_cat_eq_ok {kind : ValueKind} {aux : ℕ} {r : Except ValueCodecError Bytes}
    {out : Bytes} (h : cat (wireHeader kind aux) r = .ok out) :
    ∃ body, r = .ok body ∧ out = toLE 8 (extendedHeaderWord kind aux) ++ body := by
  obtain ⟨a, b, ha, hb, rfl⟩ := cat_eq_ok h
  cases ha
  exact ⟨b, hb, rfl⟩

variable {T : SymbolTable} {options : ValueCodecOptions}

/-- A symbol is its inline word, or a header and its name. -/
theorem wireSymbol_eq_ok {kind : ValueKind} {s : Symbol} {out : Bytes}
    (h : wireSymbol T options kind s = .ok out) :
    options.symbolEncoding = .id ∧ out = toLE 8 (pack kind.tag s.id.toNat) ∨
      options.symbolEncoding = .name ∧ ∃ name, T.name s = some name ∧ (utf8 name).length < 2 ^ 48 ∧
        out = toLE 8 (extendedHeaderWord kind (utf8 name).length) ++ utf8 name := by
  unfold wireSymbol at h
  cases henc : options.symbolEncoding with
  | id =>
    rw [henc] at h
    cases h
    exact .inl ⟨rfl, rfl⟩
  | name =>
    rw [henc] at h
    rcases hname : T.name s with _ | name
    · simp only [hname] at h; cases h
    simp only [hname] at h
    obtain ⟨aux, haux, h⟩ := bind_eq_ok h
    obtain ⟨rfl, hlt⟩ := lenAux_eq_ok haux
    obtain ⟨body, hbody, rfl⟩ := wireHeader_cat_eq_ok h
    cases hbody
    exact .inr ⟨rfl, name, rfl, hlt, rfl⟩

/-- A symbol starts with a word. -/
theorem length_wireSymbol {kind : ValueKind} {s : Symbol} {out : Bytes}
    (h : wireSymbol T options kind s = .ok out) : 8 ≤ out.length := by
  rcases wireSymbol_eq_ok h with ⟨-, rfl⟩ | ⟨-, name, -, -, rfl⟩
  · rw [length_toLE]
  · rw [length_append, length_toLE]
    omega

/-- Every encoding starts with a word. -/
theorem length_wire {v : RawValue} {out : Bytes} (h : wire T options v = .ok out) :
    8 ≤ out.length := by
  have hword : ∀ {word : ℕ}, Except.ok (toLE 8 word) = Except.ok (ε := ValueCodecError) out →
      8 ≤ out.length := by
    intro word heq
    cases heq
    rw [length_toLE]
  have hheader : ∀ {kind : ValueKind} {aux : ℕ} {r : Except ValueCodecError Bytes},
      cat (wireHeader kind aux) r = .ok out → 8 ≤ out.length := by
    intro kind aux r hcat
    obtain ⟨body, -, rfl⟩ := wireHeader_cat_eq_ok hcat
    rw [length_append, length_toLE]
    omega
  have hlen : ∀ {n : ℕ} {kind : ValueKind} {r : Except ValueCodecError Bytes},
      (lenAux n >>= fun aux => cat (wireHeader kind aux) r) = .ok out → 8 ≤ out.length := by
    intro n kind r hbind
    obtain ⟨aux, -, hcat⟩ := bind_eq_ok hbind
    exact hheader hcat
  match v with
  | .bool _ | .int _ | .float _ | .identity _ => exact hword h
  | .symbol _ | .errorCode _ => exact length_wireSymbol h
  | .string _ | .bytes _ | .list _ | .map _ => exact hlen h
  | .range _ _ | .error _ _ _ | .frob _ _ => exact hheader h
  | .relation [] [] => exact hword h
  | .relation [] (_ :: _) | .relation (_ :: _) _ => exact hlen h
  | .capability _ =>
    rw [wire] at h
    split at h
    · exact hword h
    · cases h
  | .function _ => cases h

/-- So values have eight bytes each. -/
theorem length_wireValues : ∀ {vs : List RawValue} {out : Bytes},
    wireValues T options vs = .ok out → vs.length * 8 ≤ out.length
  | [], _, h => by
    cases h
    exact Nat.zero_le _
  | v :: vs, _, h => by
    obtain ⟨a, b, ha, hb, rfl⟩ := cat_eq_ok h
    have := length_wire ha
    have := length_wireValues hb
    rw [length_cons, length_append]
    omega

/-- Entries of a map have no fewer. -/
theorem length_wireEntries : ∀ {es : List (RawValue × RawValue)} {out : Bytes},
    wireEntries T options es = .ok out → es.length * 8 ≤ out.length
  | [], _, h => by
    cases h
    exact Nat.zero_le _
  | (k, v) :: es, _, h => by
    obtain ⟨a, b, ha, hb, rfl⟩ := cat_eq_ok h
    obtain ⟨c, d, -, hd, rfl⟩ := cat_eq_ok hb
    have := length_wire ha
    have := length_wireEntries hd
    rw [length_cons, length_append, length_append]
    omega

theorem length_wireColumns : ∀ {heading : List Symbol} {out : Bytes},
    wireColumns T options heading = .ok out → heading.length * 8 ≤ out.length
  | [], _, h => by
    cases h
    exact Nat.zero_le _
  | column :: heading, _, h => by
    obtain ⟨a, b, ha, hb, rfl⟩ := cat_eq_ok h
    have := length_wireSymbol ha
    have := length_wireColumns hb
    rw [length_cons, length_append]
    omega

/-- Rows have eight bytes for each value. -/
theorem length_wireRows {arity : ℕ} : ∀ {rows : List (List RawValue)} {out : Bytes},
    (∀ row ∈ rows, row.length = arity) → wireRows T options rows = .ok out →
      rows.length * arity * 8 ≤ out.length
  | [], _, _, h => by
    cases h
    simp
  | row :: rows, _, hrows, h => by
    obtain ⟨hrow, hrows⟩ := forall_mem_cons.mp hrows
    obtain ⟨a, b, ha, hb, rfl⟩ := cat_eq_ok h
    have ha := length_wireValues ha
    have hb := length_wireRows hrows hb
    rw [hrow] at ha
    rw [length_cons, length_append, Nat.add_mul, Nat.add_mul]
    omega

end Inversion

/-! ## Emitting -/

/-- **`f` emits `r`**: from every state it appends exactly the bytes of `r`, or fails with exactly
its error.  `view` reads the bytes emitted so far. -/
def Emits {σ : Type} (view : σ → Bytes) (f : σ → Except ValueCodecError σ)
    (r : Except ValueCodecError Bytes) : Prop :=
  ∀ s, (∀ out, r = .ok out → ∃ s', f s = .ok s' ∧ view s' = view s ++ out) ∧
    ∀ e, r = .error e → f s = .error e

section Emits

variable {σ α : Type} {view : σ → Bytes} {f g : σ → Except ValueCodecError σ}
  {r r' : Except ValueCodecError Bytes}

/-- Nothing emits nothing. -/
theorem Emits.nil : Emits view .ok (.ok []) := fun s =>
  ⟨fun _ h => ⟨s, rfl, by cases h; rw [append_nil]⟩, nofun⟩

theorem Emits.error (e : ValueCodecError) : Emits view (fun _ => .error e) (.error e) := fun _ =>
  ⟨nofun, fun _ h => by cases h; rfl⟩

/-- What appends the bytes emits them. -/
theorem Emits.ok {out : Bytes} {put : σ → σ} (h : ∀ s, view (put s) = view s ++ out) :
    Emits view (fun s => .ok (put s)) (.ok out) := fun s =>
  ⟨fun _ ho => by cases ho; exact ⟨put s, rfl, h s⟩, nofun⟩

/-- **Emissions compose.** -/
theorem Emits.bind (hf : Emits view f r) (hg : Emits view g r') :
    Emits view (fun s => f s >>= g) (cat r r') := by
  intro s
  cases r with
  | error e =>
    refine ⟨nofun, fun e' h => ?_⟩
    cases h
    change (f s).bind g = _
    rw [(hf s).2 e rfl]
    rfl
  | ok a =>
    obtain ⟨s₁, hs₁, hv₁⟩ := (hf s).1 a rfl
    have hstep : (f s >>= g) = g s₁ := by
      change (f s).bind g = _
      rw [hs₁]
      rfl
    simp only [hstep]
    cases r' with
    | error e =>
      refine ⟨nofun, fun e' h => ?_⟩
      cases h
      exact (hg s₁).2 e rfl
    | ok b =>
      refine ⟨fun out h => ?_, nofun⟩
      cases h
      obtain ⟨s₂, hs₂, hv₂⟩ := (hg s₁).1 b rfl
      exact ⟨s₂, hs₂, by rw [hv₂, hv₁, append_assoc]⟩

/-- A check that emits nothing runs first. -/
theorem Emits.guard {c : Except ValueCodecError α} {f : α → σ → Except ValueCodecError σ}
    {r : α → Except ValueCodecError Bytes} (h : ∀ a, Emits view (f a) (r a)) :
    Emits view (fun s => c >>= fun a => f a s) (c >>= r) := by
  cases c with
  | error e => exact Emits.error e
  | ok a => exact h a

end Emits

/-! ## The streaming encoder emits the format -/

section Sink

variable {σ : Type} {view : σ → Bytes} {S : ValueSink σ} (T : SymbolTable)
  (options : ValueCodecOptions)

/-- A sink that never refuses and whose `view` is what was written. -/
def ValueSink.Records (S : ValueSink σ) (view : σ → Bytes) : Prop :=
  ∀ s bytes, ∃ s', S.writeBytes s bytes = .ok s' ∧ view s' = view s ++ bytes

/-- The vector records what it is given. -/
theorem ValueSink.vec_records : ValueSink.vec.Records id := fun s bytes => ⟨s ++ bytes, rfl, rfl⟩

/-- Values, if each of them is emitted. -/
theorem emits_encodeValuesToSink : ∀ {vs : List RawValue},
    (∀ v ∈ vs, Emits view (encodeValueToSink S T options v) (wire T options v)) →
      Emits view (encodeValuesToSink S T options vs) (wireValues T options vs)
  | [], _ => Emits.nil
  | _ :: _, h => by
    obtain ⟨hv, hvs⟩ := forall_mem_cons.mp h
    exact hv.bind (emits_encodeValuesToSink hvs)

/-- Entries, if their keys and values are. -/
theorem emits_encodeEntriesToSink : ∀ {es : List (RawValue × RawValue)},
    (∀ e ∈ es, Emits view (encodeValueToSink S T options e.1) (wire T options e.1) ∧
      Emits view (encodeValueToSink S T options e.2) (wire T options e.2)) →
      Emits view (encodeEntriesToSink S T options es) (wireEntries T options es)
  | [], _ => Emits.nil
  | (_, _) :: _, h => by
    obtain ⟨⟨hk, hv⟩, hes⟩ := forall_mem_cons.mp h
    exact hk.bind (hv.bind (emits_encodeEntriesToSink hes))

theorem emits_encodeRowsToSink : ∀ {rows : List (List RawValue)},
    (∀ row ∈ rows, ∀ v ∈ row, Emits view (encodeValueToSink S T options v) (wire T options v)) →
      Emits view (encodeRowsToSink S T options rows) (wireRows T options rows)
  | [], _ => Emits.nil
  | _ :: _, h => by
    obtain ⟨hrow, hrows⟩ := forall_mem_cons.mp h
    exact (emits_encodeValuesToSink T options hrow).bind (emits_encodeRowsToSink hrows)

theorem emits_encodeOptionToSink {x : Option RawValue}
    (h : ∀ v ∈ x, Emits view (encodeValueToSink S T options v) (wire T options v)) :
    Emits view (encodeOptionToSink S T options x) (wireOption T options x) := by
  cases x with
  | none => exact Emits.nil
  | some v => exact h v rfl

variable (hS : S.Records view)
include hS

/-- A run that is written. -/
theorem emits_writeBytes (bytes : Bytes) :
    Emits view (fun s => S.writeBytes s bytes) (.ok bytes) := fun s => by
  obtain ⟨s', hs', hv⟩ := hS s bytes
  exact ⟨fun _ h => by cases h; exact ⟨s', hs', hv⟩, nofun⟩

/-- A word that is written. -/
theorem emits_writeWord (word : ℕ) : Emits view (writeWord S word) (.ok (toLE 8 word)) :=
  emits_writeBytes hS _

theorem emits_header (kind : ValueKind) (aux : ℕ) :
    Emits view (writeExtendedHeader S kind aux) (wireHeader kind aux) := emits_writeWord hS _

/-- A symbol, as the options say. -/
theorem emits_encodeSymbolValue (kind : ValueKind) (symbol : Symbol) :
    Emits view (encodeSymbolValue S T options kind symbol) (wireSymbol T options kind symbol) := by
  unfold encodeSymbolValue wireSymbol
  cases options.symbolEncoding with
  | id => exact emits_writeWord hS _
  | name =>
    cases T.name symbol with
    | none => exact Emits.error _
    | some name => exact Emits.guard fun aux => (emits_header hS _ aux).bind (emits_writeBytes hS _)

theorem emits_encodeColumns : ∀ heading : List Symbol,
    Emits view (encodeColumns S T options heading) (wireColumns T options heading)
  | [] => Emits.nil
  | column :: heading =>
    (emits_encodeSymbolValue T options hS .symbol column).bind (emits_encodeColumns heading)

/-- The message of an error. -/
theorem emits_encodeMessage (message : Option String) :
    Emits view (encodeMessage S message) (wireMessage message) := by
  cases message with
  | none => exact Emits.nil
  | some message =>
    exact Emits.guard fun len => (emits_writeBytes hS (toLE 8 len)).bind (emits_writeBytes hS _)

/-- **The streaming encoder emits the wire format**, on every sink that records what it is given. -/
theorem emits_encodeValueToSink (v : RawValue) :
    Emits view (encodeValueToSink S T options v) (wire T options v) := by
  induction v with
  | bool b => exact emits_writeWord hS _
  | int i => exact emits_writeWord hS _
  | float f => exact emits_writeWord hS _
  | identity i => exact emits_writeWord hS _
  | symbol symbol => exact emits_encodeSymbolValue T options hS _ _
  | errorCode symbol => exact emits_encodeSymbolValue T options hS _ _
  | string value => exact Emits.guard fun aux => (emits_header hS _ aux).bind (emits_writeBytes hS _)
  | bytes value => exact Emits.guard fun aux => (emits_header hS _ aux).bind (emits_writeBytes hS _)
  | list values ih =>
    exact Emits.guard fun aux =>
      (emits_header hS _ aux).bind (emits_encodeValuesToSink T options ih)
  | map entries ih =>
    exact Emits.guard fun aux =>
      (emits_header hS _ aux).bind (emits_encodeEntriesToSink T options ih)
  | range start stop iha ihx =>
    exact (emits_header hS _ _).bind (iha.bind (emits_encodeOptionToSink T options ihx))
  | error code message value ih =>
    exact (emits_header hS _ _).bind ((emits_encodeSymbolValue T options hS _ _).bind
      ((emits_encodeMessage hS _).bind (emits_encodeOptionToSink T options ih)))
  | capability c =>
    change Emits view (fun s => if options.allowCapabilities then
      writeWord S (pack ValueKind.capability.tag c.raw.toNat) s else .error .capabilityNotEncodable)
      (if options.allowCapabilities then _ else .error .capabilityNotEncodable)
    split
    · exact emits_writeWord hS _
    · exact Emits.error _
  | frob delegate value ih => exact (emits_header hS _ _).bind ((emits_writeWord hS _).bind ih)
  | function f => exact Emits.error _
  | relation heading rows ih =>
    have hgeneral : Emits view
        (fun s => lenAux heading.length >>= fun aux =>
          writeExtendedHeader S .relation aux s >>= fun s =>
            encodeColumns S T options heading s >>= fun s =>
              lenWord rows.length >>= fun len =>
                writeWord S len s >>= encodeRowsToSink S T options rows)
        (lenAux heading.length >>= fun aux =>
          cat (wireHeader .relation aux) (cat (wireColumns T options heading)
            (lenWord rows.length >>= fun len =>
              cat (.ok (toLE 8 len)) (wireRows T options rows)))) :=
      Emits.guard fun aux => (emits_header hS _ aux).bind
        ((emits_encodeColumns T options hS heading).bind
          (Emits.guard fun len => (emits_writeWord hS len).bind
            (emits_encodeRowsToSink T options ih)))
    -- the empty relation is an immediate word; every other one takes the general branch
    cases heading with
    | cons column heading => exact hgeneral
    | nil =>
      cases rows with
      | nil => exact emits_writeWord hS _
      | cons row rows => exact hgeneral

end Sink

/-! ## The segmented encoder emits the format -/

namespace ValueSegments

/-- A scratch word adds its bytes. -/
theorem toVec_pushScratchWord (word : ℕ) (segs : ValueSegments) :
    (segs.pushScratchWord word).toVec = segs.toVec ++ toLE 8 word := by
  unfold toVec pushScratchWord
  rw [flatMap_append]
  congr 1
  · -- earlier segments name earlier words
    refine flatMap_congr fun seg hseg => ?_
    cases seg with
    | borrowed bytes => rfl
    | scratch index =>
      simp only [segmentBytes, getD_eq_getElem?_getD]
      rw [getElem?_append_left (segs.valid index hseg)]
  · simp [segmentBytes]

/-- A borrowed run adds its bytes. -/
theorem toVec_pushBorrowed (bytes : Bytes) (segs : ValueSegments) :
    (segs.pushBorrowed bytes).toVec = segs.toVec ++ bytes := by
  unfold pushBorrowed
  split
  · next h => rw [h, append_nil]
  · simp [toVec, segmentBytes]

end ValueSegments

section Segments

open ValueSegments

variable (T : SymbolTable) (options : ValueCodecOptions)

theorem emits_scratch (word : ℕ) :
    Emits toVec (fun segs => .ok (segs.pushScratchWord word)) (.ok (toLE 8 word)) :=
  Emits.ok (toVec_pushScratchWord word)

theorem emits_borrowed (bytes : Bytes) :
    Emits toVec (fun segs => .ok (segs.pushBorrowed bytes)) (.ok bytes) :=
  Emits.ok (toVec_pushBorrowed bytes)

/-- A symbol: its header is scratch and its name borrowed. -/
theorem emits_encodeSymbolToSegments (kind : ValueKind) (symbol : Symbol) :
    Emits toVec (encodeSymbolToSegments T options kind symbol)
      (wireSymbol T options kind symbol) := by
  unfold encodeSymbolToSegments wireSymbol
  cases options.symbolEncoding with
  | id => exact emits_scratch _
  | name =>
    cases T.name symbol with
    | none => exact Emits.error _
    | some name => exact Emits.guard fun aux => (emits_scratch _).bind (emits_borrowed _)

theorem emits_encodeColumnsToSegments : ∀ heading : List Symbol,
    Emits toVec (encodeColumnsToSegments T options heading) (wireColumns T options heading)
  | [] => Emits.nil
  | column :: heading => (emits_encodeSymbolToSegments T options .symbol column).bind
      (emits_encodeColumnsToSegments heading)

/-- The message of an error is borrowed. -/
theorem emits_encodeMessageToSegments (message : Option String) :
    Emits toVec (encodeMessageToSegments message) (wireMessage message) := by
  cases message with
  | none => exact Emits.nil
  | some message => exact Emits.guard fun len => (emits_scratch len).bind (emits_borrowed _)

/-- Values, if each of them is emitted. -/
theorem emits_encodeValuesToSegments : ∀ {vs : List RawValue},
    (∀ v ∈ vs, Emits toVec (encodeValueToSegments T options v) (wire T options v)) →
      Emits toVec (encodeValuesToSegments T options vs) (wireValues T options vs)
  | [], _ => Emits.nil
  | _ :: _, h => by
    obtain ⟨hv, hvs⟩ := forall_mem_cons.mp h
    exact hv.bind (emits_encodeValuesToSegments hvs)

theorem emits_encodeEntriesToSegments : ∀ {es : List (RawValue × RawValue)},
    (∀ e ∈ es, Emits toVec (encodeValueToSegments T options e.1) (wire T options e.1) ∧
      Emits toVec (encodeValueToSegments T options e.2) (wire T options e.2)) →
      Emits toVec (encodeEntriesToSegments T options es) (wireEntries T options es)
  | [], _ => Emits.nil
  | (_, _) :: _, h => by
    obtain ⟨⟨hk, hv⟩, hes⟩ := forall_mem_cons.mp h
    exact hk.bind (hv.bind (emits_encodeEntriesToSegments hes))

/-- Rows, if each of their values is. -/
theorem emits_encodeRowsToSegments : ∀ {rows : List (List RawValue)},
    (∀ row ∈ rows, ∀ v ∈ row, Emits toVec (encodeValueToSegments T options v) (wire T options v)) →
      Emits toVec (encodeRowsToSegments T options rows) (wireRows T options rows)
  | [], _ => Emits.nil
  | _ :: _, h => by
    obtain ⟨hrow, hrows⟩ := forall_mem_cons.mp h
    exact (emits_encodeValuesToSegments T options hrow).bind (emits_encodeRowsToSegments hrows)

theorem emits_encodeOptionToSegments {x : Option RawValue}
    (h : ∀ v ∈ x, Emits toVec (encodeValueToSegments T options v) (wire T options v)) :
    Emits toVec (encodeOptionToSegments T options x) (wireOption T options x) := by
  cases x with
  | none => exact Emits.nil
  | some v => exact h v rfl

/-- **The segmented encoder emits the wire format.** -/
theorem emits_encodeValueToSegments (v : RawValue) :
    Emits toVec (encodeValueToSegments T options v) (wire T options v) := by
  induction v with
  | bool b => exact emits_scratch _
  | int i => exact emits_scratch _
  | float f => exact emits_scratch _
  | identity i => exact emits_scratch _
  | symbol symbol => exact emits_encodeSymbolToSegments T options _ _
  | errorCode symbol => exact emits_encodeSymbolToSegments T options _ _
  | string value => exact Emits.guard fun aux => (emits_scratch _).bind (emits_borrowed _)
  | bytes value => exact Emits.guard fun aux => (emits_scratch _).bind (emits_borrowed _)
  | list values ih =>
    exact Emits.guard fun aux => (emits_scratch _).bind (emits_encodeValuesToSegments T options ih)
  | map entries ih =>
    exact Emits.guard fun aux => (emits_scratch _).bind (emits_encodeEntriesToSegments T options ih)
  | range start stop iha ihx =>
    exact (emits_scratch _).bind (iha.bind (emits_encodeOptionToSegments T options ihx))
  | error code message value ih =>
    exact (emits_scratch _).bind ((emits_encodeSymbolToSegments T options _ _).bind
      ((emits_encodeMessageToSegments _).bind (emits_encodeOptionToSegments T options ih)))
  | capability c =>
    change Emits toVec (fun segs => if options.allowCapabilities then
      .ok (segs.pushScratchWord (pack ValueKind.capability.tag c.raw.toNat))
      else .error .capabilityNotEncodable)
      (if options.allowCapabilities then _ else .error .capabilityNotEncodable)
    split
    · exact emits_scratch _
    · exact Emits.error _
  | frob delegate value ih => exact (emits_scratch _).bind ((emits_scratch _).bind ih)
  | function f => exact Emits.error _
  | relation heading rows ih =>
    have hgeneral : Emits toVec
        (fun segs => lenAux heading.length >>= fun aux =>
          encodeColumnsToSegments T options heading
            (segs.pushScratchWord (extendedHeaderWord .relation aux)) >>= fun segs =>
              lenWord rows.length >>= fun len =>
                encodeRowsToSegments T options rows (segs.pushScratchWord len))
        (lenAux heading.length >>= fun aux =>
          cat (wireHeader .relation aux) (cat (wireColumns T options heading)
            (lenWord rows.length >>= fun len =>
              cat (.ok (toLE 8 len)) (wireRows T options rows)))) :=
      Emits.guard fun aux => (emits_scratch _).bind
        ((emits_encodeColumnsToSegments T options heading).bind
          (Emits.guard fun len => (emits_scratch len).bind
            (emits_encodeRowsToSegments T options ih)))
    cases heading with
    | cons column heading => exact hgeneral
    | nil =>
      cases rows with
      | nil => exact emits_scratch _
      | cons row rows => exact hgeneral

end Segments

end Mica
