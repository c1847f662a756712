import Mica.Var.Decode

/-!
# Var/ReaderSafety — the reader never reads past the end, never panics and always stops

A read is **proper** (`Proper`) when it ends with an error the source returns, or with a value and an
offset that has not moved back and is still inside the slice.  Every part of the reader is proper
whatever the bytes are, and `readValue` is proper as soon as its fuel exceeds the bytes that are left:
each value starts with a word, so every nested read has fewer bytes to go.
-/

open OrderCode LittleEndian

namespace Mica

/-- **A proper ending**: a returned error, or an offset between `lo` and the end of the slice. -/
def Proper {α : Type} (bytes : Bytes) (lo : ℕ) : Except Fault (α × ReaderState) → Prop
  | .ok (_, st) => lo ≤ st.offset ∧ st.offset ≤ bytes.length
  | .error (.error _) => True
  | .error .panic => False
  | .error .outOfFuel => False

/-- A reader that ends properly from every offset between `lo` and the end of the slice. -/
def ReadsProperly {α : Type} (bytes : Bytes) (lo : ℕ) (read : Reader α) : Prop :=
  ∀ st : ReaderState, lo ≤ st.offset → st.offset ≤ bytes.length → Proper bytes st.offset (read st)

section Combinators

variable {α β : Type} {bytes : Bytes} {lo lo' : ℕ}

/-- A returned error is a proper ending. -/
theorem proper_fail (e : ValueCodecError) : Proper bytes lo (fail e : Except Fault (α × _)) :=
  trivial

/-- What ends above a bound ends above a lower one. -/
theorem Proper.mono {r : Except Fault (α × ReaderState)} (h : Proper bytes lo r) (hle : lo' ≤ lo) :
    Proper bytes lo' r := by
  match r with
  | .ok (_, st) => exact ⟨hle.trans h.1, h.2⟩
  | .error (.error _) => trivial

/-- A proper ending is continued properly. -/
theorem Proper.bind {r : Except Fault (α × ReaderState)}
    {k : α × ReaderState → Except Fault (β × ReaderState)} (h : Proper bytes lo r)
    (hk : ∀ a st, lo ≤ st.offset → st.offset ≤ bytes.length → Proper bytes lo' (k (a, st))) :
    Proper bytes lo' (r >>= k) := by
  match r with
  | .ok (a, st) => exact hk a st h.1 h.2
  | .error (.error _) => trivial

/-- A check that reads nothing. -/
theorem Proper.guard {c : Except Fault α} {k : α → Except Fault (β × ReaderState)}
    (hc : ∀ f, c = .error f → ∃ e, f = .error e) (hk : ∀ a, c = .ok a → Proper bytes lo (k a)) :
    Proper bytes lo (c >>= k) := by
  match c with
  | .ok a => exact hk a rfl
  | .error f =>
    obtain ⟨e, rfl⟩ := hc f rfl
    trivial

theorem checked_fault {n : ℕ} {f : Fault} (h : checked n = .error f) : ∃ e, f = .error e := by
  unfold checked at h
  split at h
  · cases h
  cases h
  exact ⟨_, rfl⟩

/-- Checked arithmetic that succeeds is exact. -/
theorem checked_ok {n m : ℕ} (h : checked n = .ok m) : m = n := by
  unfold checked at h
  split at h
  · cases h
    rfl
  · cases h

/-- A read is repeated properly. -/
theorem readsProperly_readMany {read : Reader α} (h : ReadsProperly bytes lo read) (n : ℕ) :
    ReadsProperly bytes lo (readMany read n) := by
  induction n with
  | zero => exact fun st _ hle => ⟨le_rfl, hle⟩
  | succ n ih =>
    intro st hlo hle
    refine (h st hlo hle).bind fun a st₁ h₁ hle₁ => ?_
    refine ((ih st₁ (hlo.trans h₁) hle₁).mono h₁).bind fun as st₂ h₂ hle₂ => ?_
    exact ⟨h₂, hle₂⟩

theorem readsProperly_readIf {read : Reader α} (h : ReadsProperly bytes lo read) (flag : Bool) :
    ReadsProperly bytes lo (readIf flag read) := by
  intro st hlo hle
  unfold readIf
  split
  · exact (h st hlo hle).bind fun a st₁ h₁ hle₁ => ⟨h₁, hle₁⟩
  · exact ⟨le_rfl, hle⟩

/-- A value of another kind is an error. -/
theorem readsProperly_readAs {read : Reader Value} (h : ReadsProperly bytes lo read)
    (project : Value → Option α) (message : String) :
    ReadsProperly bytes lo (readAs read project message) := by
  intro st hlo hle
  refine (h st hlo hle).bind fun v st₁ h₁ hle₁ => ?_
  dsimp only
  split
  · exact ⟨h₁, hle₁⟩
  · exact proper_fail _

theorem readsProperly_readPair {read : Reader Value} (h : ReadsProperly bytes lo read) :
    ReadsProperly bytes lo (readPair read) := by
  intro st hlo hle
  refine (h st hlo hle).bind fun k st₁ h₁ hle₁ => ?_
  refine ((h st₁ (hlo.trans h₁) hle₁).mono h₁).bind fun v st₂ h₂ hle₂ => ?_
  exact ⟨h₂, hle₂⟩

end Combinators

/-! ## The primitive reads -/

variable (options : ValueCodecOptions) (bytes : Bytes)

/-- A run moves the offset by its length, or is refused. -/
theorem proper_readExact (len : ℕ) (st : ReaderState) :
    Proper bytes (st.offset + len) (readExact bytes len st) := by
  refine Proper.guard (fun _ => checked_fault) fun stop hstop => ?_
  obtain rfl := checked_ok hstop
  split
  · exact proper_fail _
  rename_i hlen
  have hslice : sliceIndex bytes st.offset (st.offset + len)
      = .ok ((bytes.drop st.offset).take (st.offset + len - st.offset)) :=
    if_pos ⟨by omega, by omega⟩
  rw [hslice]
  exact ⟨le_rfl, not_lt.mp hlen⟩

/-- A word moves the offset by eight. -/
theorem proper_readWord (st : ReaderState) :
    Proper bytes (st.offset + 8) (readWord bytes st) := by
  unfold readWord
  cases hread : readExact bytes 8 st with
  | error f =>
    have hproper := proper_readExact bytes 8 st
    rw [hread] at hproper
    match f with
    | .error _ => trivial
  | ok r =>
    obtain ⟨run, st₁⟩ := r
    have hproper := proper_readExact bytes 8 st
    rw [hread] at hproper
    -- the run is the eight bytes between two offsets inside the slice
    have hlen : run.length = 8 := by
      unfold readExact at hread
      rcases hstop : checked (st.offset + 8) with _ | stop
      · rw [hstop] at hread; cases hread
      obtain rfl := checked_ok hstop
      rw [hstop] at hread
      change (if _ then _ else _) = _ at hread
      split at hread
      · cases hread
      rename_i hlt
      rw [sliceIndex, if_pos ⟨by omega, by omega⟩] at hread
      cases hread
      rw [List.length_take, List.length_drop]
      omega
    change Proper bytes _ (if run.length = 8 then _ else _)
    rwa [if_pos hlen]

/-- The bytes of a string. -/
theorem readsProperly_readStringPayload (len : ℕ) :
    ReadsProperly bytes 0 (readStringPayload bytes len) := by
  intro st _ hle
  refine (proper_readExact bytes len st).bind fun run st₁ h₁ hle₁ => ?_
  refine Proper.guard (fun f hf => ?_) fun s _ => ⟨by omega, hle₁⟩
  unfold stringOfUtf8 at hf
  split at hf
  · cases hf
  cases hf
  exact ⟨_, rfl⟩

theorem readsProperly_readLenPrefixedString :
    ReadsProperly bytes 0 (readLenPrefixedString bytes) := by
  intro st _ hle
  refine (proper_readWord bytes st).bind fun len st₁ h₁ hle₁ => ?_
  exact (readsProperly_readStringPayload bytes len st₁ (Nat.zero_le _) hle₁).mono (by omega)

/-- A symbol behind its header, by id or by name. -/
theorem readsProperly_readNamedSymbol (kind : ValueKind) (len : ℕ) (make : Symbol → Value) :
    ReadsProperly bytes 0 (readNamedSymbol options bytes kind len make) := by
  intro st _ hle
  unfold readNamedSymbol
  split
  · exact proper_fail _
  · refine (readsProperly_readStringPayload bytes len st (Nat.zero_le _) hle).bind
      fun name st₁ h₁ hle₁ => ?_
    exact ⟨h₁, hle₁⟩

/-- A count that the slice cannot hold is an error. -/
theorem readCount_fault {count : ℕ} {st : ReaderState} {f : Fault}
    (h : readCount bytes count st = .error f) : ∃ e, f = .error e := by
  unfold readCount at h
  cases hmin : checked (count * 8) with
  | error g =>
    rw [hmin] at h
    cases h
    exact checked_fault hmin
  | ok minimum =>
    rw [hmin] at h
    change (if _ then _ else _) = _ at h
    split at h
    · cases h
      exact ⟨_, rfl⟩
    · cases h

/-! ## Nested records -/

section Nested

variable {bytes} {lo : ℕ} {read : Reader Value} (h : ReadsProperly bytes lo read)
include h

/-- A relation, with the reader of the values in it. -/
theorem readsProperly_readRelation (aux : ℕ) :
    ReadsProperly bytes lo (readRelation bytes read aux) := by
  intro st hlo hle
  refine Proper.guard (fun _ => readCount_fault bytes) fun arity _ => ?_
  refine (readsProperly_readMany (readsProperly_readAs h _ _) arity st hlo hle).bind
    fun heading st₁ h₁ hle₁ => ?_
  refine (proper_readWord bytes st₁).bind fun rowCount st₂ h₂ hle₂ => ?_
  change Proper bytes st.offset (if _ then _ else _)
  split
  · exact proper_fail _
  refine Proper.guard (fun _ => checked_fault) fun cells _ => ?_
  refine Proper.guard (fun _ => checked_fault) fun minimum _ => ?_
  split
  · exact proper_fail _
  have h₀₂ : st.offset ≤ st₂.offset := by omega
  refine ((readsProperly_readMany (readsProperly_readMany h arity) rowCount st₂
    (hlo.trans h₀₂) hle₂).mono h₀₂).bind fun rows st₃ h₃ hle₃ => ?_
  dsimp only
  split
  · exact ⟨h₃, hle₃⟩
  · exact proper_fail _

/-- A value behind a header, with the reader of the values in it. -/
theorem readsProperly_readExtended (kind aux : ℕ) :
    ReadsProperly bytes lo (readExtended options bytes read kind aux) := by
  intro st hlo hle
  have hzero : ∀ {α : Type} {step : Reader α}, ReadsProperly bytes 0 step →
      Proper bytes st.offset (step st) := fun hstep => hstep st (Nat.zero_le _) hle
  unfold readExtended
  split
  · exact hzero (readsProperly_readNamedSymbol options bytes _ _ _)
  · exact hzero (readsProperly_readNamedSymbol options bytes _ _ _)
  · exact (hzero (readsProperly_readStringPayload bytes aux)).bind fun s st₁ h₁ hle₁ => ⟨h₁, hle₁⟩
  · exact (proper_readExact bytes aux st).bind fun run st₁ h₁ hle₁ =>
      ⟨by omega, hle₁⟩
  · refine Proper.guard (fun _ => readCount_fault bytes) fun count _ => ?_
    exact (readsProperly_readMany h count st hlo hle).bind fun vs st₁ h₁ hle₁ => ⟨h₁, hle₁⟩
  · refine Proper.guard (fun _ => readCount_fault bytes) fun count _ => ?_
    exact (readsProperly_readMany (readsProperly_readPair h) count st hlo hle).bind
      fun es st₁ h₁ hle₁ => ⟨h₁, hle₁⟩
  · split
    · exact proper_fail _
    · refine (h st hlo hle).bind fun start st₁ h₁ hle₁ => ?_
      refine ((readsProperly_readIf h _ st₁ (hlo.trans h₁) hle₁).mono h₁).bind
        fun stop st₂ h₂ hle₂ => ?_
      exact ⟨h₂, hle₂⟩
  · split
    · exact proper_fail _
    refine (readsProperly_readAs h _ _ st hlo hle).bind fun code st₁ h₁ hle₁ => ?_
    refine ((readsProperly_readIf (readsProperly_readLenPrefixedString bytes) _ st₁
      (Nat.zero_le _) hle₁).mono h₁).bind fun message st₂ h₂ hle₂ => ?_
    refine ((readsProperly_readIf h _ st₂ (hlo.trans h₂) hle₂).mono h₂).bind
      fun value st₃ h₃ hle₃ => ?_
    exact ⟨h₃, hle₃⟩
  · split
    · exact proper_fail _
    · refine (readsProperly_readAs h _ _ st hlo hle).bind fun delegate st₁ h₁ hle₁ => ?_
      refine ((h st₁ (hlo.trans h₁) hle₁).mono h₁).bind fun value st₂ h₂ hle₂ => ?_
      exact ⟨h₂, hle₂⟩
  · exact readsProperly_readRelation h aux st hlo hle
  all_goals first
    | exact proper_fail _
    | (split <;> exact proper_fail _)

end Nested

/-- **The reader is proper on every slice**, given more fuel than there are bytes left. -/
theorem proper_readValue (fuel : ℕ) {st : ReaderState} (hle : st.offset ≤ bytes.length)
    (hfuel : bytes.length - st.offset < fuel) :
    Proper bytes st.offset (readValue options bytes fuel st) := by
  induction fuel generalizing st with
  | zero => omega
  | succ fuel ih =>
    refine (proper_readWord bytes st).bind fun word st₁ h₁ hle₁ => ?_
    change Proper bytes st.offset (if _ then _ else _)
    split
    · split
      · exact ⟨by omega, hle₁⟩
      · exact proper_fail _
    · -- eight bytes are gone, so what is left is within the remaining fuel
      have hnested : ReadsProperly bytes st₁.offset (readValue options bytes fuel) :=
        fun st₂ h₂ hle₂ => ih hle₂ (by omega)
      exact (readsProperly_readExtended options hnested _ _ st₁ le_rfl hle₁).mono (by omega)

end Mica
