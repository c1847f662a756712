import Mathlib.Data.List.DropRight
import Mathlib.Data.List.TakeWhile

/-!
# Lib/Lines — the lines of a text

A text is a list and its lines are what stands between the separators.  `start` counts the items up
to a line, `column` those since the last separator; `positions` are the places of the separators, by
which an index of a text answers both.
-/

open List

namespace Lines

variable {α : Type*} [DecidableEq α] {sep : α} {s t : List α} {k n : ℕ}

/-- Where a line starts. -/
def start (sep : α) : List α → ℕ → Option ℕ
  | _, 0 => some 0
  | [], _ + 1 => none
  | a :: s, k + 1 => (if a = sep then start sep s k else start sep s (k + 1)).map (· + 1)

/-- The length of the last line. -/
def column (sep : α) (s : List α) : ℕ := (s.rtakeWhile (· ≠ sep)).length

/-- The places of the separators. -/
def positions (sep : α) : List α → List ℕ
  | [] => []
  | a :: s => if a = sep then 0 :: (positions sep s).map (· + 1) else (positions sep s).map (· + 1)

theorem length_positions (sep : α) : ∀ s : List α, (positions sep s).length = s.count sep
  | [] => rfl
  | a :: s => by
    rw [positions, count_cons]
    split
    · next h => simp [h, length_positions sep s]
    · next h => simp [h, length_positions sep s]

theorem positions_append (sep : α) : ∀ s t : List α,
    positions sep (s ++ t) = positions sep s ++ (positions sep t).map (· + s.length)
  | [], t => by simp [positions]
  | a :: s, t => by
    have hshift : (positions sep (s ++ t)).map (· + 1) =
        (positions sep s).map (· + 1) ++ (positions sep t).map (· + (a :: s).length) := by
      rw [positions_append sep s t, map_append, map_map]
      rfl
    rw [cons_append, positions, positions, hshift]
    split
    · rfl
    · rfl

theorem lt_length_of_mem_positions : ∀ {s : List α} {n : ℕ}, n ∈ positions sep s → n < s.length
  | [], _, h => nomatch h
  | a :: s, n, h => by
    have hrest : n ∈ (positions sep s).map (· + 1) → n < (a :: s).length := by
      intro h'
      obtain ⟨m, hm, rfl⟩ := mem_map.mp h'
      exact Nat.succ_lt_succ (lt_length_of_mem_positions hm)
    rw [positions] at h
    split at h
    · rcases mem_cons.mp h with rfl | h
      · exact Nat.succ_pos _
      · exact hrest h
    · exact hrest h

/-- The separators before a place. -/
theorem takeWhile_positions (sep : α) (s : List α) (n : ℕ) :
    (positions sep s).takeWhile (· < n) = positions sep (s.take n) := by
  have hcut : positions sep s =
      positions sep (s.take n) ++ (positions sep (s.drop n)).map (· + (s.take n).length) := by
    rw [← positions_append, take_append_drop]
  by_cases hn : n ≤ s.length
  · rw [hcut, takeWhile_append_of_pos, takeWhile_eq_nil_iff.mpr, append_nil]
    · intro hl h
      obtain ⟨m, -, hm⟩ := mem_map.mp (get_mem _ ⟨0, hl⟩)
      rw [← hm, length_take, min_eq_left hn, decide_eq_true_eq] at h
      omega
    · intro m hm
      have hlt := lt_length_of_mem_positions hm
      rw [length_take] at hlt
      exact decide_eq_true (by omega)
  · rw [take_of_length_le (by omega), takeWhile_eq_self_iff]
    intro m hm
    have hlt := lt_length_of_mem_positions hm
    exact decide_eq_true (by omega)

/-- A line starts after the separator before it. -/
theorem start_succ (sep : α) : ∀ (s : List α) (k : ℕ),
    start sep s (k + 1) = (positions sep s)[k]?.map (· + 1)
  | [], k => rfl
  | a :: s, k => by
    rw [start, positions]
    split
    · match k with
      | 0 => simp [start]
      | k + 1 =>
        rw [start_succ sep s k, getElem?_cons_succ, getElem?_map]
    · rw [start_succ sep s k, getElem?_map]

/-- There are as many lines as starts. -/
theorem start_eq_none_iff : start sep s k = none ↔ s.count sep < k := by
  match k with
  | 0 => simp [start]
  | k + 1 =>
    rw [start_succ, Option.map_eq_none_iff, List.getElem?_eq_none_iff, length_positions]
    exact Nat.lt_succ_iff.symm

/-- The last line begins after the last separator. -/
theorem column_add (sep : α) (s : List α) :
    column sep s + (positions sep s).getLast?.elim 0 (· + 1) = s.length := by
  induction s using List.reverseRecOn with
  | nil => rfl
  | append_singleton s a ih =>
    unfold column at ih ⊢
    rw [positions_append, rtakeWhile_concat, length_append, length_singleton]
    by_cases ha : a = sep
    · have hlast : (positions sep [a]).map (· + s.length) = [s.length] := by
        simp [positions, ha]
      rw [if_neg (by simp [ha]), hlast, getLast?_concat]
      exact Nat.zero_add _
    · have hlast : (positions sep [a]).map (· + s.length) = [] := by
        simp [positions, ha]
      rw [if_pos (by simp [ha]), hlast, append_nil, length_append, length_singleton]
      omega

/-- **A place is in the line of as many separators as stand before it.** -/
theorem start_count_take (sep : α) (hn : n ≤ s.length) :
    start sep s ((s.take n).count sep) = some (n - column sep (s.take n)) := by
  have hcolumn := column_add sep (s.take n)
  rw [length_take, min_eq_left hn] at hcolumn
  have hlen := length_positions sep (s.take n)
  match hk : (s.take n).count sep with
  | 0 =>
    rw [hk] at hlen
    rw [eq_nil_of_length_eq_zero hlen] at hcolumn
    have hzero : n - column sep (s.take n) = 0 := by
      change column sep (s.take n) + 0 = n at hcolumn
      omega
    rw [hzero, start]
  | k + 1 =>
    have hcut : positions sep s =
        positions sep (s.take n) ++ (positions sep (s.drop n)).map (· + (s.take n).length) := by
      rw [← positions_append, take_append_drop]
    have hin : k < (positions sep (s.take n)).length := by omega
    have hlast : (positions sep (s.take n)).getLast? = some (positions sep (s.take n))[k] := by
      rw [getLast?_eq_getElem?, hlen, hk, Nat.succ_sub_one, getElem?_eq_getElem hin]
    rw [hlast] at hcolumn
    change _ + (_ + 1) = n at hcolumn
    rw [start_succ, hcut, getElem?_append_left hin, getElem?_eq_getElem hin, Option.map_some]
    congr 1
    omega

/-- **A line ends before the next separator**, where the next line starts. -/
theorem start_succ_of_start (sep : α) : ∀ (s : List α) (k : ℕ) {n : ℕ}, start sep s k = some n →
    n ≤ s.length ∧ start sep s (k + 1) =
      if sep ∈ s.drop n then some (n + ((s.drop n).takeWhile (· ≠ sep)).length + 1) else none
  | [], 0, n, h => by
    obtain rfl := Option.some.inj h
    exact ⟨Nat.le_refl 0, rfl⟩
  | [], k + 1, n, h => (nomatch h)
  | a :: s, 0, n, h => by
    obtain rfl := Option.some.inj h
    refine ⟨Nat.zero_le _, ?_⟩
    rw [start, drop_zero]
    by_cases ha : a = sep
    · rw [if_pos ha, if_pos (by simp [ha]), takeWhile_cons_of_neg (by simp [ha])]
      simp [start]
    have hrest := (start_succ_of_start sep s 0 (n := 0) (by simp [start])).2
    rw [drop_zero, Nat.zero_add, Nat.zero_add] at hrest
    rw [if_neg ha, Nat.zero_add, hrest, takeWhile_cons_of_pos (by simpa using ha)]
    have hmem : sep ∈ a :: s ↔ sep ∈ s := by simp [Ne.symm ha]
    rw [if_congr hmem rfl rfl]
    split
    · simp
    · rfl
  | a :: s, k + 1, n, h => by
    have hstep : ∀ k', (start sep s k').map (· + 1) = some n →
        n ≤ (a :: s).length ∧ (start sep s (k' + 1)).map (· + 1) =
          if sep ∈ (a :: s).drop n then
            some (n + (((a :: s).drop n).takeWhile (· ≠ sep)).length + 1)
          else none := by
      intro k' hk'
      obtain ⟨m, hm, rfl⟩ := Option.map_eq_some_iff.mp hk'
      obtain ⟨hle, hnext⟩ := start_succ_of_start sep s k' hm
      refine ⟨Nat.succ_le_succ hle, ?_⟩
      rw [hnext, drop_succ_cons]
      split
      · simp only [Option.map_some]
        congr 1
        omega
      · rfl
    rw [start] at h ⊢
    split at h
    · next ha =>
      rw [if_pos ha]
      exact hstep k h
    · next ha =>
      rw [if_neg ha]
      exact hstep (k + 1) h

end Lines
