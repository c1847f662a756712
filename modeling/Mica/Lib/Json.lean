import Mathlib.Data.List.Basic
import Mathlib.Data.List.TakeWhile

/-!
# Lib/Json — compact JSON text, and that it can be read only one way

The text of a value is written without blanks, strings with the short escapes and `\u00xx` for the
other control characters.  `write_inj` is the decoding property: whatever follows it, the text of a
value determines the value and where it ends — a number needs what follows to start with no digit.
`toVec_inj` is the special case of whole texts, as bytes.
-/

/-- A JSON value; the members of an object stand in the order they are written. -/
inductive Json where
  | number (n : ℕ)
  | string (s : String)
  | array (items : List Json)
  | object (members : List (String × Json))

namespace Json

/-! ## Strings -/

/-- The letter of a two-character escape. -/
def shortEscape (c : Char) : Option Char :=
  if c = '\"' then some '\"'
  else if c = '\\' then some '\\'
  else if c = '\x08' then some 'b'
  else if c = '\t' then some 't'
  else if c = '\n' then some 'n'
  else if c = '\x0c' then some 'f'
  else if c = '\r' then some 'r'
  else none

def escapeChar (c : Char) : List Char :=
  match shortEscape c with
  | some letter => ['\\', letter]
  | none =>
    if c.toNat < 32 then
      ['\\', 'u', '0', '0', Nat.digitChar (c.toNat / 16), Nat.digitChar (c.toNat % 16)]
    else [c]

/-- The characters of a string after its opening quote, the closing quote included. -/
def stringTail : List Char → List Char
  | [] => ['\"']
  | c :: cs => escapeChar c ++ stringTail cs

theorem shortEscape_ne_u {c : Char} : shortEscape c ≠ some 'u' := by
  unfold shortEscape
  split_ifs <;> decide

theorem shortEscape_inj {c d e : Char} (hc : shortEscape c = some e) (hd : shortEscape d = some e) :
    c = d := by
  unfold shortEscape at hc hd
  split_ifs at hc <;> split_ifs at hd <;> grind

theorem ne_of_shortEscape_eq_none {c : Char} (h : shortEscape c = none) : c ≠ '\"' ∧ c ≠ '\\' := by
  unfold shortEscape at h
  split_ifs at h with h₁ h₂
  exact ⟨h₁, h₂⟩

theorem digitChar_inj : ∀ a < 16, ∀ b < 16, Nat.digitChar a = Nat.digitChar b → a = b := by
  decide

/-- No escape starts with the closing quote. -/
theorem escapeChar_ne_quote {c : Char} {r u : List Char} : escapeChar c ++ r ≠ '\"' :: u := by
  unfold escapeChar
  cases h : shortEscape c with
  | some letter => simp
  | none =>
    dsimp only
    split
    · simp
    · intro heq
      exact (ne_of_shortEscape_eq_none h).1 (List.cons.inj heq).1

theorem escapeChar_inj {c d : Char} {r u : List Char}
    (h : escapeChar c ++ r = escapeChar d ++ u) : c = d ∧ r = u := by
  unfold escapeChar at h
  cases hc : shortEscape c with
  | some e =>
    cases hd : shortEscape d with
    | some e' =>
      simp only [hc, hd, List.cons_append, List.nil_append, List.cons.injEq, true_and] at h
      obtain ⟨rfl, hr⟩ := h
      exact ⟨shortEscape_inj hc hd, hr⟩
    | none =>
      simp only [hc, hd] at h
      split at h
      · simp only [List.cons_append, List.nil_append, List.cons.injEq, true_and] at h
        exact absurd (h.1 ▸ hc) shortEscape_ne_u
      · exact absurd (List.cons.inj h).1.symm (ne_of_shortEscape_eq_none hd).2
  | none =>
    cases hd : shortEscape d with
    | some e' =>
      simp only [hc, hd] at h
      split at h
      · simp only [List.cons_append, List.nil_append, List.cons.injEq, true_and] at h
        exact absurd (h.1 ▸ hd) shortEscape_ne_u
      · exact absurd (List.cons.inj h).1 (ne_of_shortEscape_eq_none hc).2
    | none =>
      simp only [hc, hd] at h
      split at h <;> split at h
      · next hc' hd' =>
        simp only [List.cons_append, List.nil_append, List.cons.injEq, true_and] at h
        obtain ⟨hi, lo, hr⟩ := h
        have hdiv := digitChar_inj _ (by omega) _ (by omega) hi
        have hmod := digitChar_inj _ (by omega) _ (by omega) lo
        exact ⟨Char.toNat_inj.mp (by omega), hr⟩
      · exact absurd (List.cons.inj h).1.symm (ne_of_shortEscape_eq_none hd).2
      · exact absurd (List.cons.inj h).1 (ne_of_shortEscape_eq_none hc).2
      · exact List.cons.inj h

theorem stringTail_inj : ∀ {s t r u : List Char}, stringTail s ++ r = stringTail t ++ u →
    s = t ∧ r = u
  | [], [], _, _, h => ⟨rfl, (List.cons.inj h).2⟩
  | [], d :: t, _, _, h => by
    rw [stringTail, stringTail, List.append_assoc] at h
    exact absurd h.symm escapeChar_ne_quote
  | c :: s, [], _, _, h => by
    rw [stringTail, stringTail, List.append_assoc] at h
    exact absurd h escapeChar_ne_quote
  | c :: s, d :: t, _, _, h => by
    rw [stringTail, stringTail, List.append_assoc, List.append_assoc] at h
    obtain ⟨rfl, htail⟩ := escapeChar_inj h
    obtain ⟨rfl, hr⟩ := stringTail_inj htail
    exact ⟨rfl, hr⟩

/-! ## Values -/

mutual

/-- The text of a value. -/
def write : Json → List Char
  | .number n => Nat.toDigits 10 n
  | .string s => '\"' :: stringTail s.toList
  | .array [] => ['[', ']']
  | .array (v :: items) => '[' :: (write v ++ writeItems items)
  | .object [] => ['\x7b', '\x7d']
  | .object ((k, v) :: members) =>
    '\x7b' :: '\"' :: (stringTail k.toList ++ ':' :: (write v ++ writeMembers members))

/-- The items after the first, and the closing bracket. -/
def writeItems : List Json → List Char
  | [] => [']']
  | v :: items => ',' :: (write v ++ writeItems items)

/-- The members after the first, and the closing brace. -/
def writeMembers : List (String × Json) → List Char
  | [] => ['\x7d']
  | (k, v) :: members =>
    ',' :: '\"' :: (stringTail k.toList ++ ':' :: (write v ++ writeMembers members))

end

/-- The value as UTF-8 bytes. -/
def toVec (v : Json) : List UInt8 := (String.ofList v.write).toByteArray.data.toList

/-- No digit follows: the text before it, if a number, is over. -/
def Stops (r : List Char) : Prop := ∀ c ∈ r.head?, c.isDigit = false

theorem stops_nil : Stops [] := fun _ h => by simp at h

theorem stops_writeItems : ∀ (items : List Json) (r : List Char), Stops (writeItems items ++ r)
  | [], _ => by simp [Stops, writeItems]
  | _ :: _, _ => by simp [Stops, writeItems]

theorem stops_writeMembers : ∀ (members : List (String × Json)) (r : List Char),
    Stops (writeMembers members ++ r)
  | [], _ => by simp [Stops, writeMembers]
  | _ :: _, _ => by simp [Stops, writeMembers]

theorem takeWhile_isDigit {ds r : List Char} (hds : ∀ c ∈ ds, c.isDigit = true) (hr : Stops r) :
    (ds ++ r).takeWhile Char.isDigit = ds := by
  rw [List.takeWhile_append_of_pos hds]
  cases r with
  | nil => simp
  | cons c r =>
    rw [List.takeWhile_cons_of_neg (by simp [hr c (by simp)]), List.append_nil]

theorem toDigits_inj {n m : ℕ} {r u : List Char} (hr : Stops r) (hu : Stops u)
    (h : Nat.toDigits 10 n ++ r = Nat.toDigits 10 m ++ u) : n = m ∧ r = u := by
  have hdigits : ∀ k, ∀ c ∈ Nat.toDigits 10 k, c.isDigit = true := fun k c hc =>
    Nat.isDigit_of_mem_toDigits (by decide) (by decide) hc
  have hsame : Nat.toDigits 10 n = Nat.toDigits 10 m := by
    rw [← takeWhile_isDigit (hdigits n) hr, h, takeWhile_isDigit (hdigits m) hu]
  refine ⟨?_, List.append_cancel_left (hsame ▸ h)⟩
  rw [← Nat.ofDigitChars_ten_toDigits (n := n), hsame, Nat.ofDigitChars_ten_toDigits]

/-! ## Reading back -/

/-- The character a text starts with, unless it is a number. -/
def opener : Json → Option Char
  | .number _ => none
  | .string _ => some '\"'
  | .array _ => some '['
  | .object _ => some '\x7b'

theorem opener_eq (v : Json) (r : List Char) :
    (v.write ++ r).head?.filter (fun c => !c.isDigit) = v.opener := by
  match v with
  | .number n =>
    obtain ⟨c, cs, hcs⟩ := List.exists_cons_of_ne_nil (Nat.toDigits_ne_nil (n := n) (b := 10))
    have hc : c.isDigit = true :=
      Nat.isDigit_of_mem_toDigits (by decide) (by decide) (hcs ▸ List.mem_cons_self)
    simp [write, hcs, opener, hc]
  | .string s => simp [write, opener, Option.filter]
  | .array [] => simp [write, opener, Option.filter]
  | .array (v :: items) => simp [write, opener, Option.filter]
  | .object [] => simp [write, opener, Option.filter]
  | .object ((k, v) :: members) => simp [write, opener, Option.filter]

theorem opener_congr {v w : Json} {r u : List Char} (h : v.write ++ r = w.write ++ u) :
    v.opener = w.opener := by
  rw [← opener_eq v r, h, opener_eq]

theorem write_ne_bracket (v : Json) (r u : List Char) : v.write ++ r ≠ ']' :: u := by
  intro h
  have hopen := opener_eq v r
  rw [h] at hopen
  cases v <;> simp [opener, Option.filter] at hopen

mutual

/-- **The text of a value can be read only one way.** -/
theorem write_inj : ∀ (v w : Json) {r u : List Char}, Stops r → Stops u →
    v.write ++ r = w.write ++ u → v = w ∧ r = u
  | .number n, .number m, _, _, hr, hu, h => by
    obtain ⟨rfl, hru⟩ := toDigits_inj hr hu (by simpa only [write] using h)
    exact ⟨rfl, hru⟩
  | .string s, .string t, _, _, _, _, h => by
    simp only [write, List.cons_append, List.cons.injEq, true_and] at h
    obtain ⟨hst, hru⟩ := stringTail_inj h
    exact ⟨congrArg Json.string (String.toList_inj.mp hst), hru⟩
  | .array [], .array [], _, _, _, _, h => by
    simp only [write, List.cons_append, List.nil_append, List.cons.injEq, true_and] at h
    exact ⟨rfl, h⟩
  | .array [], .array (w :: items'), _, _, _, _, h => by
    simp only [write, List.cons_append, List.nil_append, List.cons.injEq, true_and,
      List.append_assoc] at h
    exact absurd h.symm (write_ne_bracket w _ _)
  | .array (v :: items), .array [], _, _, _, _, h => by
    simp only [write, List.cons_append, List.nil_append, List.cons.injEq, true_and,
      List.append_assoc] at h
    exact absurd h (write_ne_bracket v _ _)
  | .array (v :: items), .array (w :: items'), _, _, _, _, h => by
    simp only [write, List.cons_append, List.cons.injEq, true_and, List.append_assoc] at h
    obtain ⟨rfl, htail⟩ := write_inj v w (stops_writeItems _ _) (stops_writeItems _ _) h
    obtain ⟨rfl, hru⟩ := writeItems_inj items items' htail
    exact ⟨rfl, hru⟩
  | .object [], .object [], _, _, _, _, h => by
    simp only [write, List.cons_append, List.nil_append, List.cons.injEq, true_and] at h
    exact ⟨rfl, h⟩
  | .object [], .object ((k, w) :: members'), _, _, _, _, h => by
    simp [write] at h
  | .object ((k, v) :: members), .object [], _, _, _, _, h => by
    simp [write] at h
  | .object ((k, v) :: members), .object ((k', w) :: members'), _, _, _, _, h => by
    simp only [write, List.cons_append, List.cons.injEq, true_and, List.append_assoc] at h
    obtain ⟨hk, hvalue⟩ := stringTail_inj h
    obtain ⟨rfl, htail⟩ := write_inj v w (stops_writeMembers _ _) (stops_writeMembers _ _)
      (List.cons.inj hvalue).2
    obtain ⟨rfl, hru⟩ := writeMembers_inj members members' htail
    exact ⟨by rw [String.toList_inj.mp hk], hru⟩
  | .number _, .string _, _, _, _, _, h => absurd (opener_congr h) (by simp [opener])
  | .number _, .array _, _, _, _, _, h => absurd (opener_congr h) (by simp [opener])
  | .number _, .object _, _, _, _, _, h => absurd (opener_congr h) (by simp [opener])
  | .string _, .number _, _, _, _, _, h => absurd (opener_congr h) (by simp [opener])
  | .string _, .array _, _, _, _, _, h => absurd (opener_congr h) (by simp [opener])
  | .string _, .object _, _, _, _, _, h => absurd (opener_congr h) (by simp [opener])
  | .array _, .number _, _, _, _, _, h => absurd (opener_congr h) (by simp [opener])
  | .array _, .string _, _, _, _, _, h => absurd (opener_congr h) (by simp [opener])
  | .array _, .object _, _, _, _, _, h => absurd (opener_congr h) (by simp [opener])
  | .object _, .number _, _, _, _, _, h => absurd (opener_congr h) (by simp [opener])
  | .object _, .string _, _, _, _, _, h => absurd (opener_congr h) (by simp [opener])
  | .object _, .array _, _, _, _, _, h => absurd (opener_congr h) (by simp [opener])

theorem writeItems_inj : ∀ (items items' : List Json) {r u : List Char},
    writeItems items ++ r = writeItems items' ++ u → items = items' ∧ r = u
  | [], [], _, _, h => ⟨rfl, (List.cons.inj h).2⟩
  | [], _ :: _, _, _, h => by simp [writeItems] at h
  | _ :: _, [], _, _, h => by simp [writeItems] at h
  | v :: items, w :: items', _, _, h => by
    simp only [writeItems, List.cons_append, List.cons.injEq, true_and, List.append_assoc] at h
    obtain ⟨rfl, htail⟩ := write_inj v w (stops_writeItems _ _) (stops_writeItems _ _) h
    obtain ⟨rfl, hru⟩ := writeItems_inj items items' htail
    exact ⟨rfl, hru⟩

theorem writeMembers_inj : ∀ (members members' : List (String × Json)) {r u : List Char},
    writeMembers members ++ r = writeMembers members' ++ u → members = members' ∧ r = u
  | [], [], _, _, h => ⟨rfl, (List.cons.inj h).2⟩
  | [], _ :: _, _, _, h => by simp [writeMembers] at h
  | _ :: _, [], _, _, h => by simp [writeMembers] at h
  | (k, v) :: members, (k', w) :: members', _, _, h => by
    simp only [writeMembers, List.cons_append, List.cons.injEq, true_and, List.append_assoc] at h
    obtain ⟨hk, hvalue⟩ := stringTail_inj h
    obtain ⟨rfl, htail⟩ := write_inj v w (stops_writeMembers _ _) (stops_writeMembers _ _)
      (List.cons.inj hvalue).2
    obtain ⟨rfl, hru⟩ := writeMembers_inj members members' htail
    exact ⟨by rw [String.toList_inj.mp hk], hru⟩

end

/-- **Different values have different bytes.** -/
theorem toVec_inj {v w : Json} (h : v.toVec = w.toVec) : v = w := by
  have hbytes : (String.ofList v.write).toByteArray = (String.ofList w.write).toByteArray :=
    ByteArray.ext (Array.toList_inj.mp h)
  have hwrite : v.write = w.write := String.ofList_inj.mp (String.toByteArray_inj.mp hbytes)
  exact (write_inj v w stops_nil stops_nil (congrArg (· ++ []) hwrite)).1

end Json
