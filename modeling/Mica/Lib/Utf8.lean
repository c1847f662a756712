import Mathlib.Algebra.BigOperators.Group.List.Basic
import Mathlib.Algebra.Ring.Nat

/-!
# Lib/Utf8 — characters and the bytes they take

A text is a list of characters and its byte offsets count their UTF-8 lengths.  Slicing at an offset
that is inside of a character has no answer.
-/

open List

namespace Utf8

variable {s : List Char} {k n : ℕ}

def byteLen (s : List Char) : ℕ := (s.map Char.utf8Size).sum

/-- The text from a byte offset on. -/
def suffixFrom : List Char → ℕ → Option (List Char)
  | s, 0 => some s
  | [], _ + 1 => none
  | c :: s, n + 1 => if c.utf8Size ≤ n + 1 then suffixFrom s (n + 1 - c.utf8Size) else none

/-- The text up to a byte offset. -/
def prefixTo : List Char → ℕ → Option (List Char)
  | _, 0 => some []
  | [], _ + 1 => none
  | c :: s, n + 1 =>
    if c.utf8Size ≤ n + 1 then (prefixTo s (n + 1 - c.utf8Size)).map (c :: ·) else none

/-- The text between two byte offsets. -/
def slice (s : List Char) (start stop : ℕ) : Option (List Char) :=
  if start ≤ stop then (suffixFrom s start).bind (prefixTo · (stop - start)) else none

/-- Whether a character starts or the text ends at a byte offset. -/
def isBoundary (s : List Char) (n : ℕ) : Bool := (suffixFrom s n).isSome

/-- The characters with their byte offsets. -/
def charIndices : ℕ → List Char → List (ℕ × Char)
  | _, [] => []
  | offset, c :: s => (offset, c) :: charIndices (offset + c.utf8Size) s

@[simp] theorem byteLen_nil : byteLen [] = 0 := rfl

theorem byteLen_cons (c : Char) (s : List Char) : byteLen (c :: s) = c.utf8Size + byteLen s :=
  sum_cons

theorem byteLen_append (s t : List Char) : byteLen (s ++ t) = byteLen s + byteLen t := by
  rw [byteLen, map_append, sum_append]
  rfl

theorem length_le_byteLen : ∀ s : List Char, s.length ≤ byteLen s
  | [] => Nat.le_refl 0
  | c :: s => by
    have hpos := c.utf8Size_pos
    have hrest := length_le_byteLen s
    rw [byteLen_cons, length_cons]
    omega

theorem byteLen_take_le (s : List Char) (k : ℕ) : byteLen (s.take k) ≤ byteLen s := by
  have h := byteLen_append (s.take k) (s.drop k)
  rw [take_append_drop] at h
  omega

/-- The bytes up to a character and those between two. -/
theorem byteLen_take_add (s : List Char) {i j : ℕ} (h : i ≤ j) :
    byteLen (s.take j) = byteLen (s.take i) + byteLen ((s.drop i).take (j - i)) := by
  rw [← byteLen_append, ← take_add, Nat.add_sub_cancel' h]

theorem suffixFrom_take : ∀ (s : List Char) (k : ℕ), suffixFrom s
    (byteLen (s.take k)) = some (s.drop k)
  | [], k => by simp [suffixFrom]
  | c :: s, 0 => rfl
  | c :: s, k + 1 => by
    have hpos := c.utf8Size_pos
    obtain ⟨n, hn⟩ := Nat.exists_eq_add_of_lt
      (Nat.lt_of_lt_of_le hpos (Nat.le_add_right _ (byteLen (s.take k))))
    rw [take_succ_cons, byteLen_cons, hn, Nat.zero_add, suffixFrom, if_pos (by omega),
      show n + 1 - c.utf8Size = byteLen (s.take k) by omega, suffixFrom_take s k]
    rfl

theorem prefixTo_take : ∀ (s : List Char) (k : ℕ), prefixTo s (byteLen (s.take k)) = some (s.take k)
  | [], k => by simp [prefixTo]
  | c :: s, 0 => rfl
  | c :: s, k + 1 => by
    have hpos := c.utf8Size_pos
    obtain ⟨n, hn⟩ := Nat.exists_eq_add_of_lt
      (Nat.lt_of_lt_of_le hpos (Nat.le_add_right _ (byteLen (s.take k))))
    rw [take_succ_cons, byteLen_cons, hn, Nat.zero_add, prefixTo, if_pos (by omega),
      show n + 1 - c.utf8Size = byteLen (s.take k) by omega, prefixTo_take s k]
    rfl

/-- **Slicing at the offsets of characters** gives the characters between them. -/
theorem slice_take (s : List Char) {i j : ℕ} (h : i ≤ j) :
    slice s (byteLen (s.take i)) (byteLen (s.take j)) = some ((s.drop i).take (j - i)) := by
  have hadd := byteLen_take_add s h
  rw [slice, if_pos (by omega), suffixFrom_take, Option.bind_some, hadd, Nat.add_sub_cancel_left,
    prefixTo_take]

theorem isBoundary_take (s : List Char) (k : ℕ) : isBoundary s (byteLen (s.take k)) := by
  rw [isBoundary, suffixFrom_take]
  rfl

/-- A boundary is the offset of a character, or the end. -/
theorem exists_of_isBoundary : ∀ {s : List Char} {n : ℕ}, isBoundary s n → ∃ k, n = byteLen (s.take k)
  | s, 0, _ => ⟨0, rfl⟩
  | [], n + 1, h => (nomatch h)
  | c :: s, n + 1, h => by
    rw [isBoundary, suffixFrom] at h
    split at h
    · next hle =>
      obtain ⟨k, hk⟩ := exists_of_isBoundary (s := s) (n := n + 1 - c.utf8Size) h
      refine ⟨k + 1, ?_⟩
      rw [take_succ_cons, byteLen_cons]
      omega
    · cases h

theorem getElem?_charIndices : ∀ (offset : ℕ) (s : List Char) (k : ℕ),
    (charIndices offset s)[k]? = s[k]?.map fun c => (offset + byteLen (s.take k), c)
  | _, [], _ => rfl
  | offset, c :: s, 0 => rfl
  | offset, c :: s, k + 1 => by
    rw [charIndices, getElem?_cons_succ, getElem?_charIndices, getElem?_cons_succ,
      take_succ_cons, byteLen_cons, Nat.add_assoc]

theorem length_charIndices (offset : ℕ) (s : List Char) :
    (charIndices offset s).length = s.length := by
  induction s generalizing offset with
  | nil => rfl
  | cons c s ih => rw [charIndices, length_cons, length_cons, ih]

/-- The greatest boundary up to an offset. -/
def floorBoundary (s : List Char) : ℕ → ℕ
  | 0 => 0
  | n + 1 => if isBoundary s (n + 1) then n + 1 else floorBoundary s n

/-- Between the offset of a character and that of the next one there is no boundary. -/
theorem floorBoundary_eq (s : List Char) (k : ℕ) : ∀ {n : ℕ}, byteLen (s.take k) ≤ n →
    (∀ j, k < j → n < byteLen (s.take j) ∨ byteLen (s.take j) = byteLen (s.take k)) →
    floorBoundary s n = byteLen (s.take k)
  | 0, h, _ => (Nat.le_zero.mp h).symm
  | n + 1, h, hnext => by
    rw [floorBoundary]
    split
    · next hboundary =>
      obtain ⟨j, hj⟩ := exists_of_isBoundary hboundary
      rcases Nat.lt_or_ge k j with hlt | hge
      · rcases hnext j hlt with habove | hsame
        · omega
        · rw [← hsame, hj]
      · have hadd := byteLen_take_add s hge
        omega
    · next hboundary =>
      have hne : byteLen (s.take k) ≠ n + 1 := fun heq => hboundary (heq ▸ isBoundary_take s k)
      exact floorBoundary_eq s k (by omega) fun j hj => (hnext j hj).imp_left (by omega)

end Utf8
