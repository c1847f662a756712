import Mica.Lib.SpanNormal

/-!
# Lib/SpanMarker — a gap between items, behind an edit

`land` says how many tokens of an edited sequence stand before a gap.  A gap that insertions at it
push to the right stays in front of the item behind it (`land_after`); one that they do not push
stays behind the item before it (`land_before`).  A gap inside a replaced span goes to the front of
what replaces it (`land_inside`).
-/

open List

namespace SpanEdit

variable {α : Type} {n low p q i : ℕ} {spans : List (Span α)} {r : Span α} {after : Bool}

/-- A gap is not behind a span: it is before it, or at its start and not pushed by it. -/
def Stays (after : Bool) (r : Span α) (p : ℕ) : Prop :=
  p < r.start ∨ (p = r.start ∧ ¬ (r.start = r.stop ∧ after = true))

instance (after : Bool) (r : Span α) (p : ℕ) : Decidable (Stays after r p) :=
  inferInstanceAs (Decidable (_ ∨ _))

/-- The number of tokens before a gap, from a position on. -/
def land (after : Bool) : ℕ → List (Span α) → ℕ → ℕ
  | low, [], p => p - low
  | low, r :: spans, p =>
    if Stays after r p then p - low
    else if p < r.stop then r.start - low
    else r.start - low + r.text.length + land after r.stop spans p

theorem land_of_stays (h : Stays after r p) : land after low (r :: spans) p = p - low := by
  rw [land, if_pos h]

theorem land_of_inside (hstart : r.start < p) (hstop : p < r.stop) :
    land after low (r :: spans) p = r.start - low := by
  have hnot : ¬ Stays after r p := by
    unfold Stays
    omega
  rw [land, if_neg hnot, if_pos hstop]

theorem land_of_behind (h : ¬ Stays after r p) (hstop : r.stop ≤ p) :
    land after low (r :: spans) p =
      r.start - low + r.text.length + land after r.stop spans p := by
  rw [land, if_neg h, if_neg (by omega)]

/-- The three places of a gap. -/
theorem stays_or (after : Bool) (r : Span α) (p : ℕ) :
    Stays after r p ∨ (r.start < p ∧ p < r.stop) ∨ (¬ Stays after r p ∧ r.stop ≤ p) := by
  by_cases hstays : Stays after r p
  · exact .inl hstays
  by_cases hstop : r.stop ≤ p
  · exact .inr (.inr ⟨hstays, hstop⟩)
  refine .inr (.inl ⟨?_, by omega⟩)
  by_contra hstart
  rcases Nat.lt_or_ge p r.start with hlt | hge
  · exact hstays (.inl hlt)
  · exact hstays (.inr ⟨by omega, fun hempty => by omega⟩)

theorem Stays.of_le (h : Stays after r q) (hpq : p ≤ q) : Stays after r p := by
  rcases h with hlt | ⟨heq, hnot⟩
  · exact .inl (by omega)
  · rcases Nat.eq_or_lt_of_le hpq with rfl | hlt
    · exact .inr ⟨heq, hnot⟩
    · exact .inl (by omega)

theorem le_start_of_stays (h : Stays after r p) : p ≤ r.start := by
  unfold Stays at h
  omega

/-- A gap stays in the sequence. -/
theorem land_le_length (h : Spaced n low spans) (hlow : low ≤ p) (hp : p ≤ n) :
    land after low spans p ≤ (renderFrom n low spans).length := by
  induction spans generalizing low with
  | nil =>
    rw [land, renderFrom, length_keptRange]
    omega
  | cons r spans ih =>
    obtain ⟨hstart, hle, hstop, hrest⟩ := h
    rw [renderFrom, length_append, length_append, length_keptRange, length_map]
    rcases stays_or after r p with hstays | ⟨hin, hin'⟩ | ⟨hnot, hbehind⟩
    · have := le_start_of_stays hstays
      rw [land_of_stays hstays]
      omega
    · rw [land_of_inside hin hin']
      omega
    · have hmore := ih (hrest.mono (Nat.le_succ _)) hbehind
      rw [land_of_behind hnot hbehind]
      omega

/-- **Gaps keep their order.** -/
theorem land_mono (h : Spaced n low spans) (hlow : low ≤ p) (hpq : p ≤ q) :
    land after low spans p ≤ land after low spans q := by
  induction spans generalizing low with
  | nil => exact Nat.sub_le_sub_right hpq low
  | cons r spans ih =>
    obtain ⟨hstart, hle, hstop, hrest⟩ := h
    rcases stays_or after r p with hstays | ⟨hin, hin'⟩ | ⟨hnot, hbehind⟩
    · -- the second gap may be on either side of the span
      have hfirst := le_start_of_stays hstays
      rw [land_of_stays hstays]
      rcases stays_or after r q with hstays' | ⟨hin, hin'⟩ | ⟨hnot', hbehind'⟩
      · rw [land_of_stays hstays']
        omega
      · rw [land_of_inside hin hin']
        omega
      · rw [land_of_behind hnot' hbehind']
        omega
    · have hnot' : ¬ Stays after r q := by
        unfold Stays
        omega
      rw [land_of_inside hin hin', land, if_neg hnot']
      split <;> omega
    · have hnot' : ¬ Stays after r q := fun h => hnot (h.of_le hpq)
      have hmore := ih (hrest.mono (Nat.le_succ _)) hbehind
      rw [land_of_behind hnot hbehind, land_of_behind hnot' (by omega)]
      omega

/-- **The two sides of a gap differ by an insertion there.** -/
theorem land_sides (h : ∀ s ∈ spans, s.start = s.stop → s.start ≠ p) :
    land true low spans p = land false low spans p := by
  induction spans generalizing low with
  | nil => rfl
  | cons r spans ih =>
    have hr := h r mem_cons_self
    have hiff : Stays true r p ↔ Stays false r p := by
      unfold Stays
      constructor
      · rintro (hlt | ⟨heq, -⟩)
        · exact .inl hlt
        · exact .inr ⟨heq, nofun⟩
      · rintro (hlt | ⟨heq, -⟩)
        · exact .inl hlt
        · exact .inr ⟨heq, fun hempty => hr hempty.1 heq.symm⟩
    rw [land, land, ih fun s hs => h s (mem_cons_of_mem r hs)]
    simp only [hiff]

/-- An item of a kept range. -/
theorem getElem?_keptRange {high : ℕ} (hlow : low ≤ i) (hi : i < high) (rest : List (Token α)) :
    (keptRange low high ++ rest)[i - low]? = some (.kept i) := by
  rw [← keptRange_append hlow hi.le, keptRange_of_lt hi, append_assoc, cons_append]
  have hlen : (keptRange (α := α) low i).length = i - low := length_keptRange low i
  rw [← hlen, getElem?_append_right le_rfl, Nat.sub_self]
  rfl

/-- Behind the tokens of a span. -/
theorem getElem?_behind (r : Span α) (k : ℕ) (rest : List (Token α)) :
    (keptRange low r.start ++ r.text.map .fresh ++ rest)[r.start - low + r.text.length + k]? =
      rest[k]? := by
  have hlen : (keptRange low r.start ++ r.text.map Token.fresh).length =
      r.start - low + r.text.length := by
    rw [length_append, length_keptRange, length_map]
  rw [← hlen, getElem?_append_right (Nat.le_add_right _ _), Nat.add_sub_cancel_left]

/-- **A gap that is pushed stays in front of its item.** -/
theorem land_after (h : Spaced n low spans) (hlow : low ≤ i) (hi : i < n) (hfree : Free spans i) :
    (renderFrom n low spans)[land true low spans i]? = some (.kept i) := by
  induction spans generalizing low with
  | nil =>
    have hkept := getElem?_keptRange hlow hi (α := α) []
    rwa [append_nil] at hkept
  | cons r spans ih =>
    obtain ⟨hstart, hle, hstop, hrest⟩ := h
    have hout := hfree r mem_cons_self
    rw [renderFrom]
    by_cases hlt : i < r.start
    · rw [land_of_stays (.inl hlt), append_assoc]
      exact getElem?_keptRange hlow hlt _
    have hbehind : r.stop ≤ i := by omega
    have hnot : ¬ Stays true r i := by
      rintro (h | ⟨heq, hne⟩)
      · exact hlt h
      · exact hne ⟨by omega, rfl⟩
    rw [land_of_behind hnot hbehind, getElem?_behind]
    exact ih (hrest.mono (Nat.le_succ _)) hbehind fun s hs => hfree s (mem_cons_of_mem r hs)

/-- **A gap that is not pushed stays behind its item.** -/
theorem land_before (h : Spaced n low spans) (hlow : low ≤ i) (hi : i < n) (hfree : Free spans i) :
    ∃ k, land false low spans (i + 1) = k + 1 ∧
      (renderFrom n low spans)[k]? = some (.kept i) := by
  induction spans generalizing low with
  | nil =>
    have hkept := getElem?_keptRange hlow hi (α := α) []
    rw [append_nil] at hkept
    exact ⟨i - low, by rw [land]; omega, hkept⟩
  | cons r spans ih =>
    obtain ⟨hstart, hle, hstop, hrest⟩ := h
    have hout := hfree r mem_cons_self
    by_cases hlt : i < r.start
    · have hstays : Stays false r (i + 1) := by
        rcases Nat.lt_or_ge (i + 1) r.start with hlt' | hge
        · exact .inl hlt'
        · exact .inr ⟨by omega, nofun⟩
      refine ⟨i - low, by rw [land_of_stays hstays]; omega, ?_⟩
      rw [renderFrom, append_assoc]
      exact getElem?_keptRange hlow hlt _
    have hbehind : r.stop ≤ i := by omega
    have hnot : ¬ Stays false r (i + 1) := by
      unfold Stays
      omega
    obtain ⟨k, hk, hget⟩ := ih (hrest.mono (Nat.le_succ _)) hbehind
      fun s hs => hfree s (mem_cons_of_mem r hs)
    refine ⟨r.start - low + r.text.length + k, ?_, ?_⟩
    · rw [land_of_behind hnot (by omega), hk]
      rfl
    · rwa [renderFrom, getElem?_behind]

/-- **A gap inside a replaced span goes to the front of its text**, what was before the span stands
before it, and what was behind it behind it. -/
theorem land_inside (h : Spaced n low spans) (hr : r ∈ spans) (hstart : r.start < p)
    (hstop : p < r.stop) :
    ∃ X Y, renderFrom n low spans = X ++ r.text.map .fresh ++ Y ∧ X.length = land after low spans p ∧
      (∀ i, .kept i ∈ X → i < r.start) ∧ ∀ i, .kept i ∈ Y → r.stop ≤ i := by
  induction spans generalizing low with
  | nil => cases hr
  | cons s spans ih =>
    obtain ⟨hlow, hle, hn, hrest⟩ := h
    rcases mem_cons.mp hr with rfl | hr
    · refine ⟨keptRange low r.start, renderFrom n r.stop spans, rfl, ?_, ?_, ?_⟩
      · rw [length_keptRange, land_of_inside hstart hstop]
      · exact fun i hi => (mem_keptRange.mp hi).2
      · exact fun i hi => le_of_mem_renderFrom (hrest.mono (Nat.le_succ _)) hi
    obtain ⟨X, Y, heq, hlen, hX, hY⟩ := ih (hrest.mono (Nat.le_succ _)) hr
    have hbehind : s.stop < r.start := hrest.le_start r hr
    have hnot : ¬ Stays after s p := by
      unfold Stays
      omega
    refine ⟨keptRange low s.start ++ s.text.map .fresh ++ X, Y, ?_, ?_, ?_, hY⟩
    · rw [renderFrom, heq]
      simp only [append_assoc]
    · rw [length_append, length_append, length_keptRange, length_map, hlen,
        land_of_behind hnot (by omega)]
    · intro i hi
      rcases mem_append.mp hi with hi | hi
      · rcases mem_append.mp hi with hi | hi
        · have := (mem_keptRange.mp hi).2
          omega
        · obtain ⟨_, _, hx⟩ := mem_map.mp hi
          cases hx
      · exact hX i hi

end SpanEdit
