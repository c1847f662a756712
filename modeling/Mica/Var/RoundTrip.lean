import Mica.Var.Import
import Mica.Var.ReaderSafety

/-!
# Var/RoundTrip — decoding what was encoded

The reader **consumes** an encoding (`Consumes`) when, wherever the encoding lies in a slice and
whatever follows it, it returns the encoded thing, moves past exactly those bytes and takes the symbol
table to a known one.  Reading each part of the wire format consumes it, so reading what one process
wrote gives another what `importValue` says (`carries`), and gives the writer its own value back.
-/

open OrderCode LittleEndian List

namespace Mica

/-- The longest slice, `isize::MAX` bytes. -/
def isizeMax : ℕ := 2 ^ 63 - 1

/-- Where a reader stands: before the bytes `out`, with `rest` after them, fewer than `limit` bytes
to the end, and the symbol table `T`. -/
structure Before (bytes : Bytes) (T : SymbolTable) (limit : ℕ) (out rest : Bytes)
    (st : ReaderState) : Prop where
  table : st.table = T
  offset_le : st.offset ≤ bytes.length
  drop_eq : bytes.drop st.offset = out ++ rest
  left_lt : bytes.length - st.offset < limit

/-- The state `n` bytes further on, with the table `T`. -/
def ReaderState.advance (st : ReaderState) (n : ℕ) (T : SymbolTable) : ReaderState :=
  ⟨st.offset + n, T⟩

/-- **`read` consumes `out` and returns `a`**, wherever `out` lies in a slice, taking the table from
`T` to `T'`. -/
def Consumes {α : Type} (bytes : Bytes) (T T' : SymbolTable) (limit : ℕ) (read : Reader α)
    (out : Bytes) (a : α) : Prop :=
  ∀ st rest, Before bytes T limit out rest st → read st = .ok (a, st.advance out.length T')

section Basics

variable {bytes : Bytes} {T T' T'' : SymbolTable} {limit : ℕ} {out out' rest : Bytes}
  {st : ReaderState} {α β : Type}

theorem Before.length_le (h : Before bytes T limit out rest st) :
    st.offset + out.length + rest.length = bytes.length := by
  have hlen := congrArg List.length h.drop_eq
  rw [length_drop, length_append] at hlen
  have := h.offset_le
  omega

theorem Before.next (h : Before bytes T limit (out ++ out') rest st) (T' : SymbolTable) :
    Before bytes T' limit out' rest (st.advance out.length T') where
  table := rfl
  offset_le := by
    have := h.length_le
    rw [length_append] at this
    change st.offset + out.length ≤ bytes.length
    omega
  drop_eq := by
    change bytes.drop (st.offset + out.length) = _
    rw [← drop_drop, h.drop_eq, append_assoc, drop_left]
  left_lt := by
    have := h.left_lt
    change bytes.length - (st.offset + out.length) < limit
    omega

theorem Before.front (h : Before bytes T limit (out ++ out') rest st) :
    Before bytes T limit out (out' ++ rest) st where
  table := h.table
  offset_le := h.offset_le
  drop_eq := by rw [h.drop_eq, append_assoc]
  left_lt := h.left_lt

theorem Before.advance_zero (h : Before bytes T limit out rest st) : st.advance 0 T = st := by
  rw [← h.table]
  rfl

theorem advance_advance (st : ReaderState) (m n : ℕ) (T T' : SymbolTable) :
    (st.advance m T).advance n T' = st.advance (m + n) T' := by
  simp only [ReaderState.advance, Nat.add_assoc]

variable {k : α × ReaderState → Except Fault (β × ReaderState)}

/-- **Reading one thing after another.** -/
theorem Consumes.bind {read : Reader α} {a : α} {b : β} (h : Consumes bytes T T' limit read out a)
    (hk : Consumes bytes T' T'' limit (fun st => k (a, st)) out' b) :
    Consumes bytes T T'' limit (fun st => read st >>= k) (out ++ out') b := by
  intro st rest hst
  have hnext := hk (st.advance out.length T') rest (hst.next T')
  rw [advance_advance, ← length_append] at hnext
  change (read st).bind k = _
  rwa [h st (out' ++ rest) hst.front]

theorem Consumes.pure (a : α) : Consumes bytes T T limit (fun st => .ok (a, st)) [] a := by
  intro st rest hst
  rw [length_nil, hst.advance_zero]

/-- Reading one thing and returning something built from it. -/
theorem Consumes.map {read : Reader α} {a : α} {b : β} (h : Consumes bytes T T' limit read out a)
    (hk : ∀ st, k (a, st) = .ok (b, st)) :
    Consumes bytes T T' limit (fun st => read st >>= k) out b := by
  intro st rest hst
  change (read st).bind k = _
  rw [h st rest hst]
  exact hk _

/-- A check on the position, passed by every encoding. -/
theorem Consumes.guard {γ : Type} {check : ReaderState → Except Fault γ} {c : γ}
    {k : γ → Reader β} {b : β} (hcheck : ∀ st rest, Before bytes T limit out rest st →
      check st = .ok c) (hk : Consumes bytes T T' limit (k c) out b) :
    Consumes bytes T T' limit (fun st => check st >>= fun c => k c st) out b := by
  intro st rest hst
  change (check st).bind (fun c => k c st) = _
  rw [hcheck st rest hst]
  exact hk st rest hst

end Basics

/-! ## Primitive reads -/

section Reads

variable {bytes : Bytes} {T : SymbolTable} {limit : ℕ} (hbytes : bytes.length ≤ isizeMax)
include hbytes

theorem checked_of_le {n : ℕ} (h : n ≤ bytes.length) : checked n = .ok n := by
  refine if_pos ?_
  unfold isizeMax at hbytes
  unfold wordLimit
  omega

theorem consumes_readExact (out : Bytes) :
    Consumes bytes T T limit (readExact bytes out.length) out out := by
  intro st rest hst
  have hlen := hst.length_le
  have hslice : sliceIndex bytes st.offset (st.offset + out.length) = .ok out := by
    rw [sliceIndex, if_pos ⟨by omega, by omega⟩, hst.drop_eq, Nat.add_sub_cancel_left,
      take_left]
  unfold readExact
  rw [checked_of_le hbytes (by omega)]
  change (if _ then _ else _) = _
  rw [if_neg (by omega), hslice, ← hst.table]
  rfl

theorem consumes_readWord {word : ℕ} (hword : word < wordLimit) :
    Consumes bytes T T limit (readWord bytes) (toLE 8 word) word := by
  have hrun : Consumes bytes T T limit (readExact bytes (toLE 8 word).length) _ _ :=
    consumes_readExact hbytes (toLE 8 word)
  rw [length_toLE] at hrun
  refine hrun.map fun st => ?_
  change (if _ then _ else _) = _
  rw [if_pos (length_toLE 8 word), ofLE_toLE (by unfold wordLimit at hword; norm_num; omega)]

omit hbytes in
theorem stringOfUtf8_utf8 (s : String) : stringOfUtf8 (utf8 s) = .ok s := by
  have harray : (⟨(utf8 s).toArray⟩ : ByteArray) = s.toByteArray := by
    simp [utf8]
  unfold stringOfUtf8
  rw [dif_pos (by rw [harray]; exact s.isValidUTF8)]
  congr 1

theorem consumes_readStringPayload (s : String) :
    Consumes bytes T T limit (readStringPayload bytes (utf8 s).length) (utf8 s) s := by
  refine (consumes_readExact hbytes (utf8 s)).map fun st => ?_
  change (stringOfUtf8 (utf8 s)).bind _ = _
  rw [stringOfUtf8_utf8]
  rfl

/-- As many values as the bytes have words for. -/
theorem readCount_ok {count : ℕ} {out rest : Bytes} {st : ReaderState}
    (h : Before bytes T limit out rest st) (hcount : count * 8 ≤ out.length) :
    readCount bytes count st = .ok count := by
  have hlen := h.length_le
  unfold readCount
  rw [checked_of_le hbytes (by omega)]
  change (if _ then _ else _) = _
  rw [if_neg (by omega)]

end Reads

/-! ## Words -/

section Words

theorem pack_lt (tag : UInt8) (payload : ℕ) : pack tag payload < wordLimit := by
  have := tag.toNat_lt
  unfold pack wordLimit
  omega

theorem pack_tag (tag : UInt8) (payload : ℕ) : pack tag payload / 2 ^ 56 % 256 = tag.toNat := by
  have := tag.toNat_lt
  unfold pack
  omega

theorem pack_payload {tag : UInt8} {payload : ℕ} (h : payload < 2 ^ 56) :
    pack tag payload % 2 ^ 56 = payload := by
  unfold pack
  omega

theorem tag_lt (kind : ValueKind) : kind.tag.toNat < 17 := by
  cases kind <;> decide

theorem extendedHeaderWord_lt {kind : ValueKind} {aux : ℕ} (h : aux < 2 ^ 48) :
    extendedHeaderWord kind aux < wordLimit := by
  have := tag_lt kind
  unfold extendedHeaderWord wordLimit
  omega

theorem extendedHeaderWord_tag {kind : ValueKind} {aux : ℕ} (h : aux < 2 ^ 48) :
    extendedHeaderWord kind aux / 2 ^ 56 % 256 = 0xff := by
  have := tag_lt kind
  unfold extendedHeaderWord
  omega

theorem extendedHeaderWord_kind {kind : ValueKind} {aux : ℕ} (h : aux < 2 ^ 48) :
    extendedHeaderWord kind aux / 2 ^ 48 % 256 = kind.tag.toNat := by
  have := tag_lt kind
  unfold extendedHeaderWord
  omega

theorem extendedHeaderWord_aux {kind : ValueKind} {aux : ℕ} (h : aux < 2 ^ 48) :
    extendedHeaderWord kind aux % 2 ^ 48 = aux := by
  unfold extendedHeaderWord
  omega

variable (options : ValueCodecOptions)

theorem decodeInlineWord_bool (b : Bool) :
    decodeInlineWord (pack ValueKind.bool.tag b.toNat) options = .ok (.bool b) := by
  have hlt : b.toNat < 2 ^ 56 := by cases b <;> norm_num
  unfold decodeInlineWord
  simp only [pack_tag, ValueKind.ofTag_tag, pack_payload hlt]
  cases b <;> rfl

theorem payload_lt (i : Integer) : i.payload < 2 ^ 56 := by
  unfold Integer.payload
  omega

/-- Sign extension undoes the mask. -/
theorem intOfPayload_payload (i : Integer) {payload : ℕ} (heq : payload = i.payload)
    (h : payload < 2 ^ 56) : intOfPayload payload h = i := by
  have hlo := i.min_le
  have hhi := i.le_max
  unfold intMin at hlo
  unfold intMax at hhi
  have hmod : (payload : ℤ) = i.val % 2 ^ 56 := by
    rw [heq, Integer.payload]
    omega
  have hval : (intOfPayload payload h).val = i.val := by
    change (if payload < 2 ^ 55 then (payload : ℤ) else payload - 2 ^ 56) = i.val
    split <;> omega
  rwa [← Integer.mk.injEq (intOfPayload payload h).val (intOfPayload payload h).min_le
    (intOfPayload payload h).le_max i.val i.min_le i.le_max] at hval

theorem decodeInlineWord_int (i : Integer) :
    decodeInlineWord (pack ValueKind.int.tag i.payload) options = .ok (.int i) := by
  unfold decodeInlineWord
  simp only [pack_tag, ValueKind.ofTag_tag]
  rw [intOfPayload_payload i (pack_payload (payload_lt i))]

theorem decodeInlineWord_float (f : FiniteF32) :
    decodeInlineWord (pack ValueKind.float.tag f.bits.toNat) options = .ok (.float f) := by
  have hlt : f.bits.toNat < 2 ^ 32 := f.bits.toNat_lt
  unfold decodeInlineWord
  simp only [pack_tag, ValueKind.ofTag_tag, pack_payload (lt_trans hlt (by norm_num)), hlt,
    if_true, UInt32.ofNat_toNat, floatFromBits, dif_pos f.finite, dif_neg f.ne_negZero]

theorem lt_of_le_maxPayload {n : ℕ} (h : n ≤ maxPayload) : n < 2 ^ 56 := by
  unfold maxPayload at h
  omega

theorem decodeInlineWord_identity (i : Identity) :
    decodeInlineWord (pack ValueKind.identity.tag i.raw.toNat) options = .ok (.identity i) := by
  unfold decodeInlineWord
  simp only [pack_tag, ValueKind.ofTag_tag, pack_payload (lt_of_le_maxPayload i.raw_le),
    identityOfRaw, UInt64.ofNat_toNat, dif_pos i.raw_le]

theorem decodeInlineWord_capability (c : CapabilityId) (h : options.allowCapabilities = true) :
    decodeInlineWord (pack ValueKind.capability.tag c.raw.toNat) options
      = .ok (.capability c) := by
  unfold decodeInlineWord
  simp only [pack_tag, ValueKind.ofTag_tag, pack_payload (lt_of_le_maxPayload c.raw_le), h, if_true,
    capabilityOfRaw, UInt64.ofNat_toNat, dif_pos (And.intro c.raw_le c.raw_ne)]

theorem decodeInlineWord_symbol (s : Symbol) (h : options.symbolEncoding = .id) :
    decodeInlineWord (pack ValueKind.symbol.tag s.id.toNat) options = .ok (.symbol s) := by
  have hlt : s.id.toNat < 2 ^ 32 := s.id.toNat_lt
  unfold decodeInlineWord
  simp only [pack_tag, ValueKind.ofTag_tag, pack_payload (lt_trans hlt (by norm_num)), h, hlt,
    if_true, UInt32.ofNat_toNat, ne_eq, not_true_eq_false, if_false]

theorem decodeInlineWord_errorCode (s : Symbol) (h : options.symbolEncoding = .id) :
    decodeInlineWord (pack ValueKind.errorCode.tag s.id.toNat) options = .ok (.errorCode s) := by
  have hlt : s.id.toNat < 2 ^ 32 := s.id.toNat_lt
  unfold decodeInlineWord
  simp only [pack_tag, ValueKind.ofTag_tag, pack_payload (lt_trans hlt (by norm_num)), h, hlt,
    if_true, UInt32.ofNat_toNat, ne_eq, not_true_eq_false, if_false]

theorem decodeInlineWord_emptyRelation :
    decodeInlineWord (pack 0 0) options = .ok emptyRelation := by
  have hnone : ValueKind.ofTag 0 = none := rfl
  have hzero : (0 : UInt8).toNat = 0 := rfl
  unfold decodeInlineWord
  simp only [pack_tag, hnone, pack_payload (show 0 < 2 ^ 56 by norm_num), hzero, if_true]

end Words

/-! ## Reading the wire format -/

section Values

variable {bytes : Bytes} {E T T' : SymbolTable} {options : ValueCodecOptions}
  (hbytes : bytes.length ≤ isizeMax)
include hbytes

omit hbytes in
theorem readValue_inline {fuel word : ℕ} {st st' : ReaderState} {v : Value}
    (hword : readWord bytes st = .ok (word, st')) (htag : word / 2 ^ 56 % 256 ≠ 0xff)
    (h : decodeInlineWord word options = .ok v) :
    readValue options bytes (fuel + 1) st = .ok (v, st') := by
  rw [readValue, hword]
  simp only [bind, Except.bind, if_pos htag, h]

omit hbytes in
theorem readValue_extended {fuel word : ℕ} {st st' : ReaderState}
    (hword : readWord bytes st = .ok (word, st')) (htag : word / 2 ^ 56 % 256 = 0xff) :
    readValue options bytes (fuel + 1) st = readExtended options bytes (readValue options bytes fuel)
      (word / 2 ^ 48 % 256) (word % 2 ^ 48) st' := by
  rw [readValue, hword]
  simp only [bind, Except.bind, ne_eq, htag, not_true_eq_false, if_false]

/-- An inline word is its value. -/
theorem consumes_inline {tag : UInt8} {payload : ℕ} {v : Value} (htag : tag.toNat ≠ 0xff)
    (h : decodeInlineWord (pack tag payload) options = .ok v) (fuel : ℕ) :
    Consumes bytes T T fuel (readValue options bytes fuel) (toLE 8 (pack tag payload)) v := by
  cases fuel with
  | zero => exact fun st rest hst => absurd hst.left_lt (Nat.not_lt_zero _)
  | succ fuel =>
    intro st rest hst
    exact readValue_inline (consumes_readWord hbytes (pack_lt tag payload) st rest hst)
      (by rwa [pack_tag]) h

/-- An extended record is its header, then its body with one unit of fuel less. -/
theorem consumes_extended {kind : ValueKind} {aux : ℕ} {body : Bytes} {v : Value}
    (haux : aux < 2 ^ 48) (h : ∀ fuel, Consumes bytes T T' fuel
      (readExtended options bytes (readValue options bytes fuel) kind.tag.toNat aux) body v)
    (fuel : ℕ) : Consumes bytes T T' fuel (readValue options bytes fuel)
      (toLE 8 (extendedHeaderWord kind aux) ++ body) v := by
  cases fuel with
  | zero => exact fun st rest hst => absurd hst.left_lt (Nat.not_lt_zero _)
  | succ fuel =>
    intro st rest hst
    have hnext := hst.next T
    have hword := consumes_readWord hbytes (extendedHeaderWord_lt haux) st _ hst.front
    rw [length_toLE] at hnext hword
    -- the body starts eight bytes on, within the smaller fuel
    have hleft : bytes.length - (st.advance 8 T).offset < fuel := by
      have hlt := hst.left_lt
      have hle : st.offset + 8 ≤ bytes.length := hnext.offset_le
      change bytes.length - (st.offset + 8) < fuel
      omega
    have hbody : Before bytes T fuel body rest (st.advance 8 T) := { hnext with left_lt := hleft }
    have hread := h fuel _ _ hbody
    rw [advance_advance] at hread
    rw [readValue_extended hword (extendedHeaderWord_tag haux), extendedHeaderWord_kind haux,
      extendedHeaderWord_aux haux, hread, length_append, length_toLE]

variable {out : Bytes}

/-- Reading a symbol of either kind. -/
theorem consumes_symbol {kind : ValueKind} {make : Symbol → Value} {s : Symbol}
    (hinline : options.symbolEncoding = .id →
      decodeInlineWord (pack kind.tag s.id.toNat) options = .ok (make s))
    (hnamed : ∀ read : Reader Value, ∀ aux, readExtended options bytes read kind.tag.toNat aux
      = readNamedSymbol options bytes kind aux make)
    (h : wireSymbol E options kind s = .ok out) (T : SymbolTable) (fuel : ℕ) :
    Consumes bytes T (importSymbol E options s T).2 fuel (readValue options bytes fuel) out
      (make (importSymbol E options s T).1) := by
  rcases wireSymbol_eq_ok h with ⟨henc, rfl⟩ | ⟨henc, name, hname, hlt, rfl⟩
  · have := tag_lt kind
    simp only [importSymbol, henc]
    exact consumes_inline hbytes (by omega) (hinline henc) fuel
  simp only [importSymbol, henc, hname, Option.getD_some]
  refine consumes_extended hbytes hlt (fun fuel => ?_) fuel
  rw [hnamed]
  intro st rest hst
  unfold readNamedSymbol
  rw [if_neg (by rw [henc]; exact fun h => h rfl)]
  change (readStringPayload bytes _ st).bind _ = _
  rw [consumes_readStringPayload hbytes name st rest hst]
  simp only [Except.bind, ReaderState.advance]

theorem consumes_symbolValue {s : Symbol}
    (h : wireSymbol E options .symbol s = .ok out) (T : SymbolTable) (fuel : ℕ) :
    Consumes bytes T (importSymbol E options s T).2 fuel (readValue options bytes fuel) out
      (.symbol (importSymbol E options s T).1) :=
  consumes_symbol hbytes (decodeInlineWord_symbol options s) (fun _ _ => rfl) h T fuel

theorem consumes_errorCodeValue {s : Symbol}
    (h : wireSymbol E options .errorCode s = .ok out) (T : SymbolTable) (fuel : ℕ) :
    Consumes bytes T (importSymbol E options s T).2 fuel (readValue options bytes fuel) out
      (.errorCode (importSymbol E options s T).1) :=
  consumes_symbol hbytes (decodeInlineWord_errorCode options s) (fun _ _ => rfl) h T fuel

omit hbytes in
theorem consumes_readAs {α : Type} {limit : ℕ} {read : Reader Value} {project : Value → Option α}
    {message : String} {v : Value} {a : α} (h : Consumes bytes T T' limit read out v)
    (ha : project v = some a) : Consumes bytes T T' limit (readAs read project message) out a := by
  refine h.map fun st => ?_
  dsimp only
  rw [ha]

omit hbytes in
theorem consumes_readIf_true {α : Type} {limit : ℕ} {read : Reader α} {a : α}
    (h : Consumes bytes T T' limit read out a) :
    Consumes bytes T T' limit (readIf true read) out (some a) := h.map fun _ => rfl

omit hbytes in
theorem consumes_readIf_false {α : Type} {limit : ℕ} {read : Reader α} :
    Consumes bytes T T limit (readIf false read) [] none := Consumes.pure none

/-- A value that every process reads as its import, wherever its encoding lies. -/
def Carries (bytes : Bytes) (E : SymbolTable) (options : ValueCodecOptions) (v : Value) : Prop :=
  ∀ out fuel T w T', wire E options v.raw = .ok out →
    importValue E options v.raw T = .ok (w, T') →
      Consumes bytes T T' fuel (readValue options bytes fuel) out w

omit hbytes in
theorem consumes_values : ∀ {vs : List Value} {out : Bytes} {T T' : SymbolTable} {ws : List Value},
    (∀ v ∈ vs, Carries bytes E options v) → wireValues E options (vs.map Value.raw) = .ok out →
      importValues E options (vs.map Value.raw) T = .ok (ws, T') → ∀ fuel,
        Consumes bytes T T' fuel (readMany (readValue options bytes fuel) vs.length) out ws
  | [], _, _, _, _, _, h, hi, _ => by
    cases h
    cases hi
    exact Consumes.pure []
  | v :: vs, _, T, _, _, hvs, h, hi, fuel => by
    obtain ⟨hv, hvs⟩ := forall_mem_cons.mp hvs
    obtain ⟨a, b, ha, hb, rfl⟩ := cat_eq_ok h
    obtain ⟨⟨w, T₁⟩, hw, hi⟩ := bind_eq_ok hi
    obtain ⟨⟨ws, T₂⟩, hws, hi⟩ := bind_eq_ok hi
    cases hi
    exact (hv a fuel T w T₁ ha hw).bind ((consumes_values hvs hb hws fuel).map fun _ => rfl)

omit hbytes in
theorem consumes_entries : ∀ {es : List (Value × Value)} {out : Bytes} {T T' : SymbolTable}
    {fs : List (Value × Value)},
    (∀ e ∈ es, Carries bytes E options e.1 ∧ Carries bytes E options e.2) →
      wireEntries E options (es.map Value.rawEntry) = .ok out →
        importEntries E options (es.map Value.rawEntry) T = .ok (fs, T') → ∀ fuel,
          Consumes bytes T T' fuel (readMany (readPair (readValue options bytes fuel)) es.length)
            out fs
  | [], _, _, _, _, _, h, hi, _ => by
    cases h
    cases hi
    exact Consumes.pure []
  | (k, v) :: es, _, T, _, _, hes, h, hi, fuel => by
    obtain ⟨⟨hk, hv⟩, hes⟩ := forall_mem_cons.mp hes
    obtain ⟨a, b, ha, hb, rfl⟩ := cat_eq_ok h
    obtain ⟨c, d, hc, hd, rfl⟩ := cat_eq_ok hb
    obtain ⟨⟨k', T₁⟩, hk', hi⟩ := bind_eq_ok hi
    obtain ⟨⟨v', T₂⟩, hv', hi⟩ := bind_eq_ok hi
    obtain ⟨⟨fs, T₃⟩, hfs, hi⟩ := bind_eq_ok hi
    cases hi
    have hpair : Consumes bytes T T₂ fuel (readPair (readValue options bytes fuel)) (a ++ c)
        (k', v') :=
      (hk a fuel T k' T₁ ha hk').bind ((hv c fuel T₁ v' T₂ hc hv').map fun _ => rfl)
    rw [← append_assoc]
    exact hpair.bind ((consumes_entries hes hd hfs fuel).map fun _ => rfl)

omit hbytes in
theorem consumes_rows {arity : ℕ} : ∀ {rows : List Tuple} {out : Bytes} {T T' : SymbolTable}
    {ts : List Tuple}, (∀ row ∈ rows, ∀ v ∈ row, Carries bytes E options v) →
      (∀ row ∈ rows, row.length = arity) →
        wireRows E options (rows.map fun row => row.map Value.raw) = .ok out →
          importRows E options (rows.map fun row => row.map Value.raw) T = .ok (ts, T') → ∀ fuel,
            Consumes bytes T T' fuel
              (readMany (readMany (readValue options bytes fuel) arity) rows.length) out ts
  | [], _, _, _, _, _, _, h, hi, _ => by
    cases h
    cases hi
    exact Consumes.pure []
  | row :: rows, _, _, _, _, hrows, harity, h, hi, fuel => by
    obtain ⟨hrow, hrows⟩ := forall_mem_cons.mp hrows
    obtain ⟨hlen, harity⟩ := forall_mem_cons.mp harity
    obtain ⟨a, b, ha, hb, rfl⟩ := cat_eq_ok h
    obtain ⟨⟨t, T₁⟩, ht, hi⟩ := bind_eq_ok hi
    obtain ⟨⟨ts, T₂⟩, hts, hi⟩ := bind_eq_ok hi
    cases hi
    have hfirst := consumes_values hrow ha ht fuel
    rw [hlen] at hfirst
    exact hfirst.bind ((consumes_rows hrows harity hb hts fuel).map fun _ => rfl)

theorem consumes_columns : ∀ {heading : List Symbol} {out : Bytes} {message : String},
    wireColumns E options heading = .ok out → ∀ (T : SymbolTable) (fuel : ℕ),
      Consumes bytes T (importSymbols E options heading T).2 fuel
        (readMany (readAs (readValue options bytes fuel) Value.asSymbol message) heading.length)
        out (importSymbols E options heading T).1
  | [], _, _, h, _, _ => by
    cases h
    exact Consumes.pure []
  | column :: heading, _, message, h, T, fuel => by
    obtain ⟨a, b, ha, hb, rfl⟩ := cat_eq_ok h
    have hfirst : Consumes bytes T (importSymbol E options column T).2 fuel
        (readAs (readValue options bytes fuel) Value.asSymbol message) a
        (importSymbol E options column T).1 :=
      consumes_readAs (consumes_symbolValue hbytes ha T fuel) rfl
    exact hfirst.bind ((consumes_columns hb _ fuel).map fun _ => rfl)

omit hbytes in
theorem consumes_option {x y : Option Value} {flag : Bool}
    (hx : ∀ v ∈ x, Carries bytes E options v) (hflag : flag = x.isSome)
    (h : wireOption E options (x.map Value.raw) = .ok out)
    (hi : importOption E options (x.map Value.raw) T = .ok (y, T')) (fuel : ℕ) :
    Consumes bytes T T' fuel (readIf flag (readValue options bytes fuel)) out y := by
  subst hflag
  cases x with
  | none =>
    cases h
    cases hi
    exact consumes_readIf_false
  | some v =>
    obtain ⟨⟨w, T₁⟩, hw, hi⟩ := bind_eq_ok hi
    cases hi
    exact consumes_readIf_true (hx v rfl out fuel T w T' h hw)

theorem consumes_message {m : Option String} {flag : Bool} (hflag : flag = m.isSome)
    (h : wireMessage m = .ok out) (limit : ℕ) :
    Consumes bytes T T limit (readIf flag (readLenPrefixedString bytes)) out m := by
  subst hflag
  cases m with
  | none =>
    cases h
    exact consumes_readIf_false
  | some message =>
    obtain ⟨len, hlen, h⟩ := bind_eq_ok h
    obtain ⟨rfl, hlt⟩ := lenWord_eq_ok hlen
    obtain ⟨a, b, ha, hb, rfl⟩ := cat_eq_ok h
    cases ha
    cases hb
    exact consumes_readIf_true
      ((consumes_readWord hbytes hlt).bind (consumes_readStringPayload hbytes message))

omit hbytes in
theorem emptyRelation_eq {r : RelationValue} (hheading : r.heading = []) (hrows : r.rows = []) :
    Value.ofRelation r = emptyRelation := by
  refine Value.ext ?_
  simp [Value.ofRelation, emptyRelation, hheading, hrows]

omit hbytes in
/-- A relation of no columns has at most one row. -/
theorem rows_length_le_one (r : RelationValue) (h : r.heading.length = 0) : r.rows.length ≤ 1 := by
  have hnil : ∀ row ∈ r.rows, row = [] := fun row hrow =>
    eq_nil_of_length_eq_zero ((r.row_arity row hrow).trans h)
  have hsorted := r.rows_sorted
  match hrows : r.rows with
  | [] => exact Nat.zero_le _
  | [_] => exact le_rfl
  | a :: b :: l =>
    rw [hrows] at hnil hsorted
    have hlt := (pairwise_cons.mp hsorted).1 b mem_cons_self
    rw [hnil a mem_cons_self, hnil b (mem_cons_of_mem _ mem_cons_self)] at hlt
    exact absurd hlt (lt_irrefl _)

/-- The body of a relation record. -/
theorem consumes_readRelation {r : RelationValue} {columns cells : Bytes} {ts : List Tuple}
    {w : Value} (ih : ∀ row ∈ r.rows, ∀ v ∈ row, Carries bytes E options v)
    (hlen : r.rows.length < wordLimit) (hcolumns : wireColumns E options r.heading = .ok columns)
    (hcells : wireRows E options (r.rows.map fun row => row.map Value.raw) = .ok cells)
    (hts : importRows E options (r.rows.map fun row => row.map Value.raw)
      (importSymbols E options r.heading T).2 = .ok (ts, T'))
    (hw : Value.relation (importSymbols E options r.heading T).1 ts = .ok w) (fuel : ℕ) :
    Consumes bytes T T' fuel
      (readRelation bytes (readValue options bytes fuel) r.heading.length)
      (columns ++ (toLE 8 r.rows.length ++ cells)) w := by
  have hcellsLen : r.rows.length * r.heading.length * 8 ≤ cells.length := by
    have harity : ∀ row ∈ r.rows.map (fun row => row.map Value.raw),
        row.length = r.heading.length := by
      intro row hrow
      obtain ⟨t, ht, rfl⟩ := mem_map.mp hrow
      rw [length_map]
      exact r.row_arity t ht
    have := length_wireRows harity hcells
    rwa [length_map] at this
  refine Consumes.guard (c := r.heading.length) (fun st rest hst => readCount_ok hbytes hst ?_) ?_
  · have := length_wireColumns hcolumns
    rw [length_append]
    omega
  refine (consumes_columns hbytes hcolumns T fuel).bind ((consumes_readWord hbytes hlen).bind ?_)
  -- the three checks before the cells, then the cells, then the relation in its new order
  intro st rest hst
  have hle := hst.length_le
  have hzero : ¬(r.heading.length = 0 ∧ 1 < r.rows.length) := fun h =>
    absurd (rows_length_le_one r h.1) (not_le.mpr h.2)
  have hchecked : checked (r.rows.length * r.heading.length)
      = .ok (r.rows.length * r.heading.length) := checked_of_le hbytes (by omega)
  have hchecked' : checked (r.rows.length * r.heading.length * 8)
      = .ok (r.rows.length * r.heading.length * 8) := checked_of_le hbytes (by omega)
  have hleft : ¬bytes.length - st.offset < r.rows.length * r.heading.length * 8 := by omega
  have hrows := consumes_rows ih r.row_arity hcells hts fuel st rest hst
  simp only [if_neg hzero, hchecked, hchecked', bind, Except.bind, if_neg hleft, hrows, hw]

/-- **Every value that encodes is read as its import**, wherever its encoding lies. -/
theorem carries (v : Value) : Carries bytes E options v := by
  induction v using Value.induction with intro out fuel T w T' h hi
  | bool b =>
    cases h
    cases hi
    exact consumes_inline hbytes (by decide) (decodeInlineWord_bool options b) fuel
  | int i =>
    cases h
    cases hi
    exact consumes_inline hbytes (by decide) (decodeInlineWord_int options i) fuel
  | float f =>
    cases h
    cases hi
    exact consumes_inline hbytes (by decide) (decodeInlineWord_float options f) fuel
  | identity i =>
    cases h
    cases hi
    exact consumes_inline hbytes (by decide) (decodeInlineWord_identity options i) fuel
  | symbol s =>
    cases hi
    exact consumes_symbolValue hbytes h T fuel
  | errorCode s =>
    cases hi
    exact consumes_errorCodeValue hbytes h T fuel
  | string s =>
    obtain ⟨aux, haux, h⟩ := bind_eq_ok h
    obtain ⟨rfl, hlt⟩ := lenAux_eq_ok haux
    obtain ⟨body, hbody, rfl⟩ := wireHeader_cat_eq_ok h
    cases hbody
    cases hi
    exact consumes_extended hbytes hlt
      (fun _ => (consumes_readStringPayload hbytes s).map
        (k := fun x => .ok (Value.string x.1, x.2)) fun _ => rfl) fuel
  | bytes b =>
    obtain ⟨aux, haux, h⟩ := bind_eq_ok h
    obtain ⟨rfl, hlt⟩ := lenAux_eq_ok haux
    obtain ⟨body, hbody, rfl⟩ := wireHeader_cat_eq_ok h
    cases hbody
    cases hi
    exact consumes_extended hbytes hlt
      (fun _ => (consumes_readExact hbytes b).map
        (k := fun x => .ok (Value.bytes x.1, x.2)) fun _ => rfl) fuel
  | list vs ih =>
    obtain ⟨aux, haux, h⟩ := bind_eq_ok h
    obtain ⟨rfl, hlt⟩ := lenAux_eq_ok haux
    obtain ⟨body, hbody, rfl⟩ := wireHeader_cat_eq_ok h
    obtain ⟨⟨ws, T₁⟩, hws, hi⟩ := bind_eq_ok hi
    cases hi
    have hcount := length_wireValues hbody
    refine consumes_extended hbytes hlt (fun fuel => ?_) fuel
    rw [length_map] at hcount ⊢
    exact Consumes.guard (fun st rest hst => readCount_ok hbytes hst hcount)
      ((consumes_values ih hbody hws fuel).map (k := fun x => .ok (Value.list x.1, x.2))
        fun _ => rfl)
  | map es hes ih =>
    obtain ⟨aux, haux, h⟩ := bind_eq_ok h
    obtain ⟨rfl, hlt⟩ := lenAux_eq_ok haux
    obtain ⟨body, hbody, rfl⟩ := wireHeader_cat_eq_ok h
    obtain ⟨⟨fs, T₁⟩, hfs, hi⟩ := bind_eq_ok hi
    cases hi
    have hcount := length_wireEntries hbody
    refine consumes_extended hbytes hlt (fun fuel => ?_) fuel
    rw [length_map] at hcount ⊢
    exact Consumes.guard (fun st rest hst => readCount_ok hbytes hst hcount)
      ((consumes_entries ih hbody hfs fuel).map (k := fun x => .ok (Value.map x.1, x.2))
        fun _ => rfl)
  | range a x iha ihx =>
    obtain ⟨body, hbody, rfl⟩ := wireHeader_cat_eq_ok h
    obtain ⟨b, c, hb, hc, rfl⟩ := cat_eq_ok hbody
    obtain ⟨⟨a', T₁⟩, ha', hi⟩ := bind_eq_ok hi
    obtain ⟨⟨x', T₂⟩, hx', hi⟩ := bind_eq_ok hi
    cases hi
    refine consumes_extended hbytes (by unfold rangeFlags; split <;> norm_num) (fun fuel => ?_) fuel
    have hflags : rangeFlags (x.map Value.raw) / 2 = 0 := by
      unfold rangeFlags
      split <;> rfl
    have hstop : decide (rangeFlags (x.map Value.raw) % 2 = 1) = x.isSome := by
      cases x <;> rfl
    intro st rest hst
    change (if _ then _ else _) = _
    rw [if_neg (by rw [hflags]; exact fun h => h rfl)]
    exact ((iha b fuel T a' T₁ hb ha').bind ((consumes_option ihx hstop hc hx' fuel).map
      (k := fun y => .ok (Value.range a' y.1, y.2)) fun _ => rfl)) st rest hst
  | error code message value ih =>
    obtain ⟨body, hbody, rfl⟩ := wireHeader_cat_eq_ok h
    obtain ⟨a, b, ha, hb, rfl⟩ := cat_eq_ok hbody
    obtain ⟨c, d, hc, hd, rfl⟩ := cat_eq_ok hb
    obtain ⟨⟨value', T₁⟩, hvalue', hi⟩ := bind_eq_ok hi
    cases hi
    refine consumes_extended hbytes (by unfold errorFlags; split <;> split <;> norm_num)
      (fun fuel => ?_) fuel
    have hflags : errorFlags message (value.map Value.raw) / 4 = 0 := by
      cases message <;> cases value <;> simp [errorFlags]
    have hmessage : decide (errorFlags message (value.map Value.raw) % 2 = 1) = message.isSome := by
      cases message <;> cases value <;> simp [errorFlags]
    have hvalue : decide (errorFlags message (value.map Value.raw) / 2 % 2 = 1) = value.isSome := by
      cases message <;> cases value <;> simp [errorFlags]
    intro st rest hst
    change (if _ then _ else _) = _
    rw [if_neg (by rw [hflags]; exact fun h => h rfl)]
    have hcode : Consumes bytes T (importSymbol E options code T).2 fuel
        (readAs (readValue options bytes fuel) Value.asErrorCode
          "rich error code is not an error code") a (importSymbol E options code T).1 :=
      consumes_readAs (consumes_errorCodeValue hbytes ha T fuel) rfl
    exact (hcode.bind ((consumes_message hbytes hmessage hc fuel).bind
      ((consumes_option ih hvalue hd hvalue' fuel).map
        (k := fun y => .ok (Value.error (importSymbol E options code T).1 message y.1, y.2))
        fun _ => rfl))) st rest hst
  | capability c =>
    cases hi
    change (if _ then _ else _) = _ at h
    split at h
    · next hallow =>
      cases h
      exact consumes_inline hbytes (by decide) (decodeInlineWord_capability options c hallow) fuel
    · cases h
  | frob delegate v ih =>
    obtain ⟨body, hbody, rfl⟩ := wireHeader_cat_eq_ok h
    obtain ⟨a, b, ha, hb, rfl⟩ := cat_eq_ok hbody
    obtain ⟨⟨v', T₁⟩, hv', hi⟩ := bind_eq_ok hi
    cases ha
    cases hi
    refine consumes_extended hbytes (by norm_num) (fun fuel => ?_) fuel
    have hdelegate : Consumes bytes T T fuel (readAs (readValue options bytes fuel) Value.asIdentity
        "frob delegate is not an identity")
        (toLE 8 (pack ValueKind.identity.tag delegate.raw.toNat)) delegate :=
      consumes_readAs (consumes_inline hbytes (by decide)
        (decodeInlineWord_identity options delegate) fuel) rfl
    exact hdelegate.bind ((ih b fuel T v' T' hb hv').map
      (k := fun y => .ok (Value.frob delegate y.1, y.2)) fun _ => rfl)
  | function f => cases h
  | relation r ih =>
    obtain ⟨⟨ts, T₁⟩, hts, hi⟩ := bind_eq_ok hi
    obtain ⟨w', hw', hi⟩ := bind_eq_ok hi
    cases hi
    have hgeneral : (lenAux r.heading.length >>= fun aux => cat (wireHeader .relation aux)
        (cat (wireColumns E options r.heading)
          (lenWord (r.rows.map fun row => row.map Value.raw).length >>= fun len =>
            cat (.ok (toLE 8 len)) (wireRows E options (r.rows.map fun row => row.map Value.raw)))))
          = .ok out → Consumes bytes T T' fuel (readValue options bytes fuel) out w := by
      intro h
      obtain ⟨aux, haux, h⟩ := bind_eq_ok h
      obtain ⟨rfl, hlt⟩ := lenAux_eq_ok haux
      obtain ⟨body, hbody, rfl⟩ := wireHeader_cat_eq_ok h
      obtain ⟨columns, rest, hcolumns, hrest, rfl⟩ := cat_eq_ok hbody
      obtain ⟨len, hlen, hrest⟩ := bind_eq_ok hrest
      obtain ⟨rfl, hword⟩ := lenWord_eq_ok hlen
      obtain ⟨a, cells, ha, hcells, rfl⟩ := cat_eq_ok hrest
      cases ha
      rw [length_map] at hword ⊢
      exact consumes_extended hbytes hlt
        (consumes_readRelation hbytes ih hword hcolumns hcells hts hw') fuel
    change wire E options (.relation r.heading _) = _ at h
    -- only the empty relation of no columns is an inline word
    match hheading : r.heading, hrows : r.rows with
    | [], [] =>
      rw [hheading, hrows] at h
      cases h
      rw [hheading] at hts hw'
      rw [hrows] at hts
      cases hts
      have hempty : w = emptyRelation := by
        have := Value.relation_eq_self r
        rw [hheading, hrows] at this
        have heq := hw'.symm.trans this
        cases heq
        exact emptyRelation_eq hheading hrows
      rw [hempty]
      have hword : (0 : ℕ) = pack 0 0 := rfl
      rw [hword]
      exact consumes_inline hbytes (by decide) (decodeInlineWord_emptyRelation options) fuel
    | [], row :: rows =>
      refine hgeneral ?_
      rw [hheading, hrows] at h ⊢
      exact h
    | column :: heading, rows =>
      refine hgeneral ?_
      rw [hheading, hrows] at h ⊢
      exact h

end Values

/-! ## The codec -/

/-- Encoding to a byte vector appends the wire format. -/
theorem encodeValueWithOptions_eq (T : SymbolTable) (options : ValueCodecOptions) (v : Value)
    (out : Bytes) :
    encodeValueWithOptions T options v out = (wire T options v.raw).map (out ++ ·) := by
  have hemits := emits_encodeValueToSink T options ValueSink.vec_records v.raw out
  unfold encodeValueWithOptions
  rcases hwire : wire T options v.raw with e | bytes
  · exact hemits.2 e hwire
  obtain ⟨s', hs', hview⟩ := hemits.1 bytes hwire
  rw [hs']
  exact congrArg Except.ok hview

/-- **What one process encodes, another decodes as its import**, with any bytes after it. -/
theorem decodeValueWithOptions_wire {E T T' : SymbolTable} {options : ValueCodecOptions}
    {v w : Value} {out : Bytes} (h : wire E options v.raw = .ok out)
    (hi : importValue E options v.raw T = .ok (w, T')) (suffix : Bytes)
    (hlen : (out ++ suffix).length ≤ isizeMax) :
    decodeValueWithOptions T options (out ++ suffix) = .ok (w, out.length, T') := by
  have hread := carries hlen v out ((out ++ suffix).length + 1) T w T' h hi ⟨0, T⟩ suffix
    ⟨rfl, Nat.zero_le _, rfl, Nat.lt_succ_of_le (Nat.sub_le _ _)⟩
  unfold decodeValueWithOptions
  rw [hread]
  simp only [bind, Except.bind, ReaderState.advance, Nat.zero_add]

theorem decodeValueExactWithOptions_wire {T : SymbolTable} {options : ValueCodecOptions} {v : Value}
    {out : Bytes} (h : wire T options v.raw = .ok out) (hlen : out.length ≤ isizeMax) :
    decodeValueExactWithOptions T options out = .ok (v, T) := by
  have hread := carries hlen v out (out.length + 1) T v T h (importValue_self h) ⟨0, T⟩ []
    ⟨rfl, Nat.zero_le _, (append_nil out).symm, Nat.lt_succ_of_le (Nat.sub_le _ _)⟩
  unfold decodeValueExactWithOptions
  rw [hread]
  simp only [bind, Except.bind, ReaderState.advance, Nat.zero_add, if_true]

/-- **The codec round trip.**  Encode a value: decoding gives it back, exactly or with the exact
length in front of any suffix (slices have at most `isize::MAX` bytes).  Any sink that records what
it is given receives the concatenated segments, and refuses with the same error.  On every byte
string the decoder ends with a value inside the slice or a returned error. -/
theorem codec_roundTrip (T : SymbolTable) (options : ValueCodecOptions) :
    (∀ (v : Value) (out : Bytes), encodeValueWithOptions T options v [] = .ok out →
      (out.length ≤ isizeMax → decodeValueExactWithOptions T options out = .ok (v, T)) ∧
      ∀ suffix : Bytes, (out ++ suffix).length ≤ isizeMax →
        decodeValueWithOptions T options (out ++ suffix) = .ok (v, out.length, T)) ∧
    (∀ {σ : Type} (S : ValueSink σ) (view : σ → Bytes), S.Records view → ∀ (v : Value) (s : σ),
      match encodeValueSegmentsWithOptions T options v with
      | .ok segs => ∃ s', encodeValueToSink S T options v.raw s = .ok s' ∧
          view s' = view s ++ segs.toVec
      | .error e => encodeValueToSink S T options v.raw s = .error e) ∧
    (∀ bytes : Bytes,
      (∃ v n T', n ≤ bytes.length ∧
        decodeValueWithOptions T options bytes = .ok (v, n, T')) ∨
      ∃ e, decodeValueWithOptions T options bytes = .error (.error e)) ∧
    ∀ bytes : Bytes,
      (∃ v T', decodeValueExactWithOptions T options bytes = .ok (v, T')) ∨
      ∃ e, decodeValueExactWithOptions T options bytes = .error (.error e) := by
  have hread : ∀ bytes : Bytes,
      Proper bytes 0 (readValue options bytes (bytes.length + 1) ⟨0, T⟩) := fun bytes =>
    proper_readValue options bytes _ (Nat.zero_le _) (Nat.lt_succ_of_le (Nat.sub_le _ _))
  refine ⟨fun v out h => ?_, fun S view hS v s => ?_, fun bytes => ?_, fun bytes => ?_⟩
  · have hwire : wire T options v.raw = .ok out := by
      rw [encodeValueWithOptions_eq] at h
      rcases hw : wire T options v.raw with _ | out'
      · rw [hw] at h; cases h
      rw [hw] at h
      cases h
      rfl
    exact ⟨decodeValueExactWithOptions_wire hwire,
      decodeValueWithOptions_wire hwire (importValue_self hwire)⟩
  · have hsink := emits_encodeValueToSink T options hS v.raw s
    have hsegs := emits_encodeValueToSegments T options v.raw ValueSegments.empty
    unfold encodeValueSegmentsWithOptions
    rcases hw : wire T options v.raw with e | out
    · rw [hsegs.2 e hw]
      exact hsink.2 e hw
    obtain ⟨segs, hsegs, hvec⟩ := hsegs.1 out hw
    obtain ⟨s', hs', hview⟩ := hsink.1 out hw
    rw [hsegs]
    exact ⟨s', hs', by rw [hview, hvec]; rfl⟩
  · have hproper := hread bytes
    unfold decodeValueWithOptions
    match hr : readValue options bytes (bytes.length + 1) ⟨0, T⟩, hproper with
    | .ok (v, st), hproper => exact .inl ⟨v, st.offset, st.table, hproper.2, rfl⟩
    | .error (.error e), _ => exact .inr ⟨e, rfl⟩
  · have hproper := hread bytes
    unfold decodeValueExactWithOptions
    match hr : readValue options bytes (bytes.length + 1) ⟨0, T⟩, hproper with
    | .error (.error e), _ => exact .inr ⟨e, rfl⟩
    | .ok (v, st), hproper =>
      by_cases hend : st.offset = bytes.length
      · exact .inl ⟨v, st.table, if_pos hend⟩
      · exact .inr ⟨_, (if_neg hend).trans (if_pos hproper.2)⟩

end Mica
