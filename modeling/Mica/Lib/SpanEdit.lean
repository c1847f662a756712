import Mathlib.Algebra.Order.BigOperators.Group.List
import Mathlib.Algebra.Ring.Nat
import Mathlib.Data.Nat.Init
import Mathlib.Logic.Function.Basic
import Mathlib.Order.Lattice

/-!
# Lib/SpanEdit — edits of a sequence, by position

A sequence of `n` items is edited by replacing spans of positions.  What an edit makes of the
sequence is a list of tokens: items that are kept, by their position, and items that are new.

* `Edit` says of every gap what is inserted there, and of every item whether it is replaced; edits that
  touch different places commute (`Edit.put_comm`).
* `render` reads a list of spans as tokens; `shift_kept` says where a kept item stands in it.
* `spliceAll_shift` — spans that are moved behind a concurrent edit and then applied to its result give
  the edit of both.
-/

open List Bool

namespace SpanEdit

variable {α β : Type}

structure Span (α : Type) where
  start : ℕ
  stop : ℕ
  text : List α
  deriving DecidableEq

/-- An item of the sequence, or a new one. -/
inductive Token (α : Type) where
  | kept (position : ℕ)
  | fresh (item : α)
  deriving DecidableEq

/-- What a token stands for. -/
def Token.value (items : ℕ → α) : Token α → α
  | .kept position => items position
  | .fresh item => item

/-! ## Splices -/

/-- Replace the items from one position to another. -/
def splice (l : List β) (start stop : ℕ) (text : List β) : List β :=
  l.take start ++ text ++ l.drop stop

/-- Replace spans, the last first, so that positions stay as they are. -/
def spliceAll (spans : List (Span β)) (l : List β) : List β :=
  spans.foldr (fun r l => splice l r.start r.stop r.text) l

theorem spliceAll_cons (r : Span β) (spans : List (Span β)) (l : List β) :
    spliceAll (r :: spans) l = splice (spliceAll spans l) r.start r.stop r.text := rfl

theorem spliceAll_append (spans spans' : List (Span β)) (l : List β) :
    spliceAll (spans ++ spans') l = spliceAll spans (spliceAll spans' l) := foldr_append

theorem le_length_splice {l : List β} {start : ℕ} (h : start ≤ l.length) (stop : ℕ) (text : List β) :
    start ≤ (splice l start stop text).length := by
  unfold splice
  rw [append_assoc, length_append, length_take, min_eq_left h]
  exact Nat.le_add_right _ _

/-- The span with other items. -/
def Span.map (f : α → β) (r : Span α) : Span β := ⟨r.start, r.stop, r.text.map f⟩

theorem map_splice (f : α → β) (l : List α) (start stop : ℕ) (text : List α) :
    (splice l start stop text).map f = splice (l.map f) start stop (text.map f) := by
  simp [splice, map_take, map_drop]

theorem map_spliceAll (f : α → β) (spans : List (Span α)) (l : List α) :
    (spliceAll spans l).map f = spliceAll (spans.map (Span.map f)) (l.map f) := by
  induction spans with
  | nil => rfl
  | cons r spans ih =>
    rw [map_cons, spliceAll, foldr_cons, ← spliceAll, map_splice, ih]
    rfl

theorem splice_middle (X M Y : List β) (text : List β) :
    splice (X ++ M ++ Y) X.length (X.length + M.length) text = X ++ text ++ Y := by
  unfold splice
  rw [append_assoc X M Y, take_left, ← append_assoc X M Y, ← length_append,
    drop_left]

/-- Two spans that touch are one. -/
theorem splice_splice {l : List β} {a b c : ℕ} (hab : a ≤ b) (hb : b ≤ l.length) (s t : List β) :
    splice (splice l b c t) a b s = splice l a c (s ++ t) := by
  unfold splice
  have hlen : (l.take b).length = b := by
    rw [length_take]
    exact min_eq_left hb
  have hdrop : (l.take b ++ t ++ l.drop c).drop b = t ++ l.drop c := by
    rw [append_assoc]
    nth_rewrite 1 [← hlen]
    exact drop_left
  have htake : (l.take b ++ t ++ l.drop c).take a = l.take a := by
    rw [append_assoc, take_append_of_le_length (by omega), take_take,
      min_eq_left hab]
  rw [hdrop, htake]
  simp only [append_assoc]

/-! ## Edits, place by place -/

/-- What is inserted into every gap, and what the items are replaced by. -/
@[ext] structure Edit (α : Type) where
  gap : ℕ → List α
  cell : ℕ → Option (List α)

namespace Edit

variable {e : Edit α} {r s : Span α} {n p q : ℕ}

/-- The edit that changes nothing. -/
def empty : Edit α := ⟨fun _ => [], fun _ => none⟩

/-- What becomes of an item. -/
def cellTokens (e : Edit α) (i : ℕ) : List (Token α) :=
  match e.cell i with
  | none => [.kept i]
  | some text => text.map .fresh

/-- The tokens before a gap. -/
def before (e : Edit α) (p : ℕ) : List (Token α) :=
  (List.range p).flatMap fun i => (e.gap i).map .fresh ++ e.cellTokens i

/-- The tokens after a gap. -/
def after (e : Edit α) (p n : ℕ) : List (Token α) :=
  (List.range' p (n - p)).flatMap fun i => e.cellTokens i ++ (e.gap (i + 1)).map .fresh

/-- The tokens of the sequence. -/
def render (e : Edit α) (n : ℕ) : List (Token α) := e.before n ++ (e.gap n).map .fresh

/-- Add a span.  The text of a span with items stands where the first of them was. -/
def put (e : Edit α) (r : Span α) : Edit α :=
  if r.start = r.stop then { e with gap := Function.update e.gap r.start r.text }
  else { e with
    cell := fun i => if r.start ≤ i ∧ i < r.stop then some (if i = r.start then r.text else [])
      else e.cell i }

theorem before_succ (e : Edit α) (p : ℕ) :
    e.before (p + 1) = e.before p ++ ((e.gap p).map .fresh ++ e.cellTokens p) := by
  unfold before
  rw [range_succ, flatMap_append, flatMap_singleton]

theorem after_of_lt (e : Edit α) (h : p < n) :
    e.after p n = e.cellTokens p ++ (e.gap (p + 1)).map .fresh ++ e.after (p + 1) n := by
  unfold after
  obtain ⟨k, hk⟩ : ∃ k, n - p = k + 1 := ⟨n - p - 1, by omega⟩
  rw [hk, range'_succ, flatMap_cons]
  congr 3
  omega

/-- The tokens split at a gap. -/
theorem render_split (e : Edit α) (h : p ≤ n) :
    e.render n = e.before p ++ (e.gap p).map .fresh ++ e.after p n := by
  induction h using Nat.decreasingInduction with
  | self =>
    unfold render after
    simp
  | of_succ k hk ih =>
    rw [ih, before_succ, e.after_of_lt hk]
    simp only [append_assoc]

theorem before_congr {e' : Edit α} (hgap : ∀ i < p, e'.gap i = e.gap i)
    (hcell : ∀ i < p, e'.cell i = e.cell i) : e'.before p = e.before p := by
  refine flatMap_congr fun i hi => ?_
  have hlt := mem_range.mp hi
  rw [hgap i hlt, cellTokens, cellTokens, hcell i hlt]

theorem after_congr {e' : Edit α} (hgap : ∀ i, p < i → e'.gap i = e.gap i)
    (hcell : ∀ i, p ≤ i → e'.cell i = e.cell i) : e'.after p n = e.after p n := by
  refine flatMap_congr fun i hi => ?_
  have hle := (mem_range'_1.mp hi).1
  rw [hgap (i + 1) (by omega), cellTokens, cellTokens, hcell i hle]

/-! ### Adding a span -/

theorem put_gap_of_ne (h : r.start ≠ r.stop) : (e.put r).gap = e.gap := by
  unfold put
  rw [if_neg h]

theorem put_cell_of_eq (h : r.start = r.stop) : (e.put r).cell = e.cell := by
  unfold put
  rw [if_pos h]

theorem put_gap_apply (i : ℕ) (h : i ≠ r.start) : (e.put r).gap i = e.gap i := by
  unfold put
  split
  · exact Function.update_of_ne h _ _
  · rfl

theorem put_cell_apply (i : ℕ) (h : ¬ (r.start ≤ i ∧ i < r.stop)) : (e.put r).cell i = e.cell i := by
  unfold put
  split
  · rfl
  · exact if_neg h

/-- The spans do not insert into one gap, and do not replace one item. -/
def Apart (r s : Span α) : Prop :=
  (r.start = r.stop → s.start = s.stop → r.start ≠ s.start) ∧
    (r.start ≠ r.stop → s.start ≠ s.stop → ∀ i, r.start ≤ i → i < r.stop →
      ¬ (s.start ≤ i ∧ i < s.stop))

theorem Apart.symm (h : Apart r s) : Apart s r :=
  ⟨fun hs hr => (h.1 hr hs).symm, fun hs hr i hi hi' hboth => h.2 hr hs i hboth.1 hboth.2 ⟨hi, hi'⟩⟩

/-- **Edits at different places commute.** -/
theorem put_comm (h : Apart r s) : (e.put r).put s = (e.put s).put r := by
  by_cases hr : r.start = r.stop
  · by_cases hs : s.start = s.stop
    · unfold put
      rw [if_pos hr, if_pos hs, if_pos hs, if_pos hr]
      ext1
      · dsimp only
        rw [Function.update_comm (h.1 hr hs)]
      · rfl
    · unfold put
      rw [if_pos hr, if_neg hs, if_neg hs, if_pos hr]
  · by_cases hs : s.start = s.stop
    · unfold put
      rw [if_neg hr, if_pos hs, if_pos hs, if_neg hr]
    unfold put
    rw [if_neg hr, if_neg hs, if_neg hs, if_neg hr]
    ext1
    · rfl
    funext i
    dsimp only
    by_cases hi : r.start ≤ i ∧ i < r.stop
    · rw [if_pos hi, if_neg (h.2 hr hs i hi.1 hi.2), if_pos hi]
    · rw [if_neg hi, if_neg hi]

/-- All spans of a list, the last first. -/
def putAll (e : Edit α) (spans : List (Span α)) : Edit α := spans.foldr (fun r e => e.put r) e

theorem putAll_cons (e : Edit α) (r : Span α) (spans : List (Span α)) :
    e.putAll (r :: spans) = (e.putAll spans).put r := rfl

theorem putAll_put_comm {spans : List (Span α)} (h : ∀ r ∈ spans, Apart r s) :
    (e.put s).putAll spans = (e.putAll spans).put s := by
  induction spans with
  | nil => rfl
  | cons r spans ih =>
    rw [putAll_cons, putAll_cons, ih fun r' hr' => h r' (mem_cons_of_mem r hr')]
    exact put_comm (h r mem_cons_self).symm

theorem putAll_comm {spans others : List (Span α)} (h : ∀ r ∈ spans, ∀ s ∈ others, Apart r s) :
    (e.putAll spans).putAll others = (e.putAll others).putAll spans := by
  induction spans with
  | nil => rfl
  | cons r spans ih =>
    rw [putAll_cons, putAll_cons, ← ih fun r' hr' => h r' (mem_cons_of_mem r hr')]
    exact putAll_put_comm fun s hs => (h r mem_cons_self s hs).symm

theorem putAll_gap_apply {spans : List (Span α)} {i : ℕ}
    (h : ∀ r ∈ spans, r.start = r.stop → i ≠ r.start) : (e.putAll spans).gap i = e.gap i := by
  induction spans with
  | nil => rfl
  | cons r spans ih =>
    rw [putAll_cons, ← ih fun r' hr' => h r' (mem_cons_of_mem r hr')]
    by_cases hempty : r.start = r.stop
    · exact put_gap_apply i (h r mem_cons_self hempty)
    · rw [put_gap_of_ne hempty]

theorem putAll_cell_apply {spans : List (Span α)} {i : ℕ}
    (h : ∀ r ∈ spans, ¬ (r.start ≤ i ∧ i < r.stop)) : (e.putAll spans).cell i = e.cell i := by
  induction spans with
  | nil => rfl
  | cons r spans ih =>
    rw [putAll_cons, put_cell_apply i (h r mem_cons_self)]
    exact ih fun r' hr' => h r' (mem_cons_of_mem r hr')

/-- What is replaced stays replaced. -/
theorem putAll_cell_ne_none {spans : List (Span α)} {i : ℕ}
    (h : e.cell i ≠ none ∨ ∃ r ∈ spans, r.start ≤ i ∧ i < r.stop) :
    (e.putAll spans).cell i ≠ none := by
  induction spans with
  | nil => exact h.resolve_right fun ⟨r, hr, _⟩ => not_mem_nil hr
  | cons r spans ih =>
    rw [putAll_cons]
    by_cases hi : r.start ≤ i ∧ i < r.stop
    · unfold put
      rw [if_neg (by omega)]
      dsimp only
      rw [if_pos hi]
      exact nofun
    rw [put_cell_apply i hi]
    refine ih (h.imp_right ?_)
    rintro ⟨r', hr', hi'⟩
    rcases mem_cons.mp hr' with rfl | hr'
    · exact absurd hi' hi
    · exact ⟨r', hr', hi'⟩

/-- An insertion into a gap in which there is nothing. -/
theorem splice_put_insert (hp : p ≤ n) (hgap : e.gap p = []) (text : List α) :
    splice (e.render n) (e.before p).length (e.before p).length (text.map .fresh) =
      (e.put ⟨p, p, text⟩).render n := by
  have hbefore : (e.put ⟨p, p, text⟩).before p = e.before p :=
    before_congr (fun i hi => put_gap_apply i (Nat.ne_of_lt hi)) fun i _ => by
      rw [put_cell_of_eq rfl]
  have hafter : (e.put ⟨p, p, text⟩).after p n = e.after p n :=
    after_congr (fun i hi => put_gap_apply i (Nat.ne_of_gt hi)) fun i _ => by
      rw [put_cell_of_eq rfl]
  have htext : (e.put ⟨p, p, text⟩).gap p = text := by
    unfold put
    rw [if_pos rfl]
    exact Function.update_self _ _ _
  rw [e.render_split hp, (e.put _).render_split hp, hbefore, hafter, htext, hgap]
  have hsplit := splice_middle (e.before p) [] (e.after p n) (text.map .fresh)
  rwa [length_nil, Nat.add_zero] at hsplit

/-- The tokens of a span whose gaps are empty. -/
theorem render_span (hpq : p < q) (hq : q ≤ n) (hgaps : ∀ x, p < x → x < q → e.gap x = []) :
    e.render n = (e.before p ++ (e.gap p).map .fresh) ++
      (List.range' p (q - p)).flatMap e.cellTokens ++
      ((e.gap q).map .fresh ++ e.after q n) := by
  have hfrom : ∀ k x, x + (k + 1) = q → p ≤ x →
      e.after x n = (List.range' x (k + 1)).flatMap e.cellTokens ++
        ((e.gap q).map .fresh ++ e.after q n) := by
    intro k
    induction k with
    | zero =>
      intro x hx _
      rw [e.after_of_lt (by omega), show x + 1 = q by omega]
      simp [range'_succ]
    | succ k ih =>
      intro x hx hpx
      rw [e.after_of_lt (by omega), hgaps (x + 1) (by omega) (by omega),
        ih (x + 1) (by omega) (by omega), range'_succ (n := k + 1)]
      simp
  obtain ⟨k, hk⟩ : ∃ k, q - p = k + 1 := ⟨q - p - 1, by omega⟩
  rw [e.render_split (by omega : p ≤ n), hfrom k p (by omega) le_rfl, hk]
  simp only [append_assoc]

/-- A span whose items are there and whose gaps are empty. -/
theorem splice_put_span (hpq : p < q) (hq : q ≤ n) (hcells : ∀ i, p ≤ i → i < q → e.cell i = none)
    (hgaps : ∀ x, p < x → x < q → e.gap x = []) (text : List α) :
    splice (e.render n) (e.before p ++ (e.gap p).map Token.fresh).length
      ((e.before p ++ (e.gap p).map Token.fresh).length + (q - p)) (text.map .fresh) =
      (e.put ⟨p, q, text⟩).render n := by
  have hne : (⟨p, q, text⟩ : Span α).start ≠ (⟨p, q, text⟩ : Span α).stop := Nat.ne_of_lt hpq
  have hgap : (e.put ⟨p, q, text⟩).gap = e.gap := put_gap_of_ne hne
  have hbefore : (e.put ⟨p, q, text⟩).before p = e.before p :=
    before_congr (fun i _ => by rw [hgap]) fun i hi => put_cell_apply i fun h => by
      have := h.1
      dsimp only at this
      omega
  have hafter : (e.put ⟨p, q, text⟩).after q n = e.after q n :=
    after_congr (fun i _ => by rw [hgap]) fun i hi => put_cell_apply i fun h => by
      have := h.2
      dsimp only at this
      omega
  have hkept : (List.range' p (q - p)).flatMap e.cellTokens = (List.range' p (q - p)).map .kept := by
    rw [← flatMap_pure_eq_map]
    refine flatMap_congr fun i hi => ?_
    obtain ⟨hle, hlt⟩ := mem_range'_1.mp hi
    rw [cellTokens, hcells i hle (by omega)]
    rfl
  have hnew : (List.range' p (q - p)).flatMap (e.put ⟨p, q, text⟩).cellTokens = text.map .fresh := by
    obtain ⟨k, hk⟩ : ∃ k, q - p = k + 1 := ⟨q - p - 1, by omega⟩
    have hfirst : (e.put ⟨p, q, text⟩).cellTokens p = text.map .fresh := by
      unfold cellTokens put
      rw [if_neg hne]
      simp [hpq]
    have hrest : (List.range' (p + 1) k).flatMap (e.put ⟨p, q, text⟩).cellTokens = [] := by
      refine flatMap_eq_nil_iff.mpr fun i hi => ?_
      obtain ⟨hle, hlt⟩ := mem_range'_1.mp hi
      unfold cellTokens put
      rw [if_neg hne]
      have h₁ : p ≤ i := by omega
      have h₂ : i < q := by omega
      have h₃ : i ≠ p := by omega
      simp [h₁, h₂, h₃]
    rw [hk, range'_succ, flatMap_cons, hfirst, hrest, append_nil]
  rw [e.render_span hpq hq hgaps, hkept,
    (e.put ⟨p, q, text⟩).render_span hpq hq fun x hx hx' => by rw [hgap]; exact hgaps x hx hx', hnew,
    hbefore, hafter, hgap]
  have hsplit := splice_middle (e.before p ++ (e.gap p).map .fresh)
    ((List.range' p (q - p)).map Token.kept) ((e.gap q).map .fresh ++ e.after q n) (text.map .fresh)
  rwa [length_map, length_range'] at hsplit

end Edit

/-! ## Lists of spans -/

/-- Spans from a position on, in order, with an item between any two. -/
def Spaced (n : ℕ) : ℕ → List (Span α) → Prop
  | _, [] => True
  | low, r :: spans => low ≤ r.start ∧ r.start ≤ r.stop ∧ r.stop ≤ n ∧ Spaced n (r.stop + 1) spans

/-- Items that are kept, from one position to another. -/
def keptRange (low high : ℕ) : List (Token α) := (List.range' low (high - low)).map .kept

/-- The tokens from a position on. -/
def renderFrom (n : ℕ) : ℕ → List (Span α) → List (Token α)
  | low, [] => keptRange low n
  | low, r :: spans => keptRange low r.start ++ r.text.map .fresh ++ renderFrom n r.stop spans

variable {n low i : ℕ} {spans : List (Span α)}

@[simp] theorem length_keptRange (low high : ℕ) :
    (keptRange (α := α) low high).length = high - low := by
  simp [keptRange]

theorem mem_keptRange {high : ℕ} :
    Token.kept (α := α) i ∈ keptRange low high ↔ low ≤ i ∧ i < high := by
  constructor
  · intro h
    obtain ⟨x, hx, hxi⟩ := mem_map.mp h
    obtain rfl := Token.kept.inj hxi
    obtain ⟨hle, hlt⟩ := mem_range'_1.mp hx
    omega
  · intro h
    exact mem_map_of_mem (mem_range'_1.mpr (by omega))

theorem keptRange_append {mid high : ℕ} (h : low ≤ mid) (h' : mid ≤ high) :
    keptRange (α := α) low mid ++ keptRange mid high = keptRange low high := by
  unfold keptRange
  have happend := range'_append_1 (s := low) (m := mid - low) (n := high - mid)
  rw [show low + (mid - low) = mid by omega, show mid - low + (high - mid) = high - low by omega]
    at happend
  rw [← map_append, happend]

theorem keptRange_of_lt {high : ℕ} (h : low < high) :
    keptRange (α := α) low high = .kept low :: keptRange (low + 1) high := by
  unfold keptRange
  rw [show high - low = high - (low + 1) + 1 by omega, range'_succ]
  rfl

theorem Spaced.mono {low' : ℕ} (h : Spaced n low spans) (hle : low' ≤ low) : Spaced n low' spans := by
  cases spans with
  | nil => trivial
  | cons r spans => exact ⟨hle.trans h.1, h.2⟩

theorem Spaced.le_start (h : Spaced n low spans) : ∀ r ∈ spans, low ≤ r.start := by
  induction spans generalizing low with
  | nil => exact nofun
  | cons r spans ih =>
    intro s hs
    rcases mem_cons.mp hs with rfl | hs
    · exact h.1
    · have hle := ih h.2.2.2 s hs
      have := h.1
      have := h.2.1
      omega

theorem Spaced.le_stop (h : Spaced n low spans) : ∀ r ∈ spans, r.start ≤ r.stop ∧ r.stop ≤ n := by
  induction spans generalizing low with
  | nil => exact nofun
  | cons r spans ih =>
    intro s hs
    rcases mem_cons.mp hs with rfl | hs
    · exact ⟨h.2.1, h.2.2.1⟩
    · exact ih h.2.2.2 s hs

theorem Spaced.dropWhile (h : Spaced n low spans) (p : Span α → Bool) :
    Spaced n low (spans.dropWhile p) := by
  induction spans generalizing low with
  | nil => trivial
  | cons r spans ih =>
    rw [dropWhile_cons]
    split
    · have := h.1
      have := h.2.1
      exact (ih h.2.2.2).mono (by omega)
    · exact h

/-- No two spans of the list touch. -/
theorem Spaced.trichotomy (h : Spaced n low spans) {r s : Span α} (hr : r ∈ spans) (hs : s ∈ spans) :
    r = s ∨ r.stop < s.start ∨ s.stop < r.start := by
  induction spans generalizing low with
  | nil => exact nomatch hr
  | cons x spans ih =>
    rcases mem_cons.mp hr with rfl | hr'
    · rcases mem_cons.mp hs with rfl | hs'
      · exact .inl rfl
      · exact .inr (.inl (h.2.2.2.le_start s hs'))
    · rcases mem_cons.mp hs with rfl | hs'
      · exact .inr (.inr (h.2.2.2.le_start r hr'))
      · exact ih h.2.2.2 hr' hs'

/-- A position that no span covers. -/
def Free (spans : List (Span α)) (i : ℕ) : Prop := ∀ r ∈ spans, ¬ (r.start ≤ i ∧ i < r.stop)

/-! ### Where a position goes -/

/-- A span that ends before a position; whether an insertion at the position itself does is asked
for. -/
def counts (p : ℕ) (start : Bool) (r : Span α) : Bool :=
  r.stop < p || (r.stop = p && (start || r.start ≠ r.stop))

/-- The items that the spans before a position remove. -/
def removed (spans : List (Span α)) (p : ℕ) (start : Bool) : ℕ :=
  ((spans.filter (counts p start)).map fun r => r.stop - r.start).sum

/-- The items that the spans before a position insert. -/
def inserted (spans : List (Span α)) (p : ℕ) (start : Bool) : ℕ :=
  ((spans.filter (counts p start)).map fun r => r.text.length).sum

theorem counts_true {p : ℕ} {r : Span α} : counts p true r = true ↔ r.stop ≤ p := by
  unfold counts
  simp [Nat.le_iff_lt_or_eq]

theorem removed_cons (r : Span α) (spans : List (Span α)) (p : ℕ) (start : Bool) :
    removed (r :: spans) p start =
      (if counts p start r then r.stop - r.start else 0) + removed spans p start := by
  unfold removed
  cases hcounts : counts p start r with
  | true => rw [filter_cons_of_pos hcounts, map_cons, sum_cons, if_pos rfl]
  | false =>
    rw [filter_cons_of_neg (by rw [hcounts]; exact nofun), if_neg nofun, Nat.zero_add]

theorem inserted_cons (r : Span α) (spans : List (Span α)) (p : ℕ) (start : Bool) :
    inserted (r :: spans) p start =
      (if counts p start r then r.text.length else 0) + inserted spans p start := by
  unfold inserted
  cases hcounts : counts p start r with
  | true => rw [filter_cons_of_pos hcounts, map_cons, sum_cons, if_pos rfl]
  | false =>
    rw [filter_cons_of_neg (by rw [hcounts]; exact nofun), if_neg nofun, Nat.zero_add]

theorem removed_eq_zero (spans : List (Span α)) {p : ℕ} (start : Bool) (h : ∀ r ∈ spans, p < r.stop) :
    removed spans p start = 0 ∧ inserted spans p start = 0 := by
  have hnone : spans.filter (counts p start) = [] := by
    refine filter_eq_nil_iff.mpr fun r hr hcounts => ?_
    have hlt := h r hr
    unfold counts at hcounts
    simp only [or_eq_true, and_eq_true, decide_eq_true_eq] at hcounts
    omega
  unfold removed inserted
  rw [hnone]
  exact ⟨rfl, rfl⟩

/-- No more is removed before a position than is there. -/
theorem removed_le (h : Spaced n low spans) (p : ℕ)
    (start : Bool) : removed spans p start ≤ p - low := by
  induction spans generalizing low with
  | nil => exact Nat.zero_le _
  | cons r spans ih =>
    obtain ⟨hstart, hle, hstop, hrest⟩ := h
    have hmore := ih hrest
    rw [removed_cons]
    split
    · next hcounts =>
      have hbefore : r.stop ≤ p := by
        unfold counts at hcounts
        simp only [or_eq_true, and_eq_true, decide_eq_true_eq] at hcounts
        omega
      omega
    · omega

/-- **A kept item stands behind what is before it.** -/
theorem shift_kept (h : Spaced n low spans) (hlow : low ≤ i) (hi : i < n) (hfree : Free spans i) :
    ∃ X Y, renderFrom n low spans = X ++ .kept i :: Y ∧ Token.kept i ∉ X ∧
      X.length + removed spans i true + low = i + inserted spans i true := by
  induction spans generalizing low with
  | nil =>
    refine ⟨keptRange low i, keptRange (i + 1) n, ?_, ?_, ?_⟩
    · rw [renderFrom, ← keptRange_of_lt hi, keptRange_append hlow hi.le]
    · rw [mem_keptRange]
      omega
    · rw [length_keptRange]
      simp only [removed, inserted, filter_nil, map_nil, sum_nil]
      omega
  | cons r spans ih =>
    obtain ⟨hstart, hle, hstop, hrest⟩ := h
    by_cases hbefore : i < r.start
    · -- neither this span nor a later one ends by then
      have hzero := removed_eq_zero (r :: spans) (p := i) true (by
        intro s hs
        rcases mem_cons.mp hs with rfl | hs
        · omega
        · have := hrest.le_start s hs
          have := (hrest.le_stop s hs).1
          omega)
      refine ⟨keptRange low i,
        keptRange (i + 1) r.start ++ (r.text.map .fresh ++ renderFrom n r.stop spans), ?_, ?_, ?_⟩
      · rw [renderFrom, ← keptRange_append hlow hbefore.le, keptRange_of_lt hbefore]
        simp only [append_assoc, cons_append]
      · rw [mem_keptRange]
        omega
      · rw [hzero.1, hzero.2, length_keptRange]
        omega
    · have hafter : r.stop ≤ i := by
        have := hfree r mem_cons_self
        omega
      obtain ⟨X, Y, heq, hnot, hlen⟩ := ih (hrest.mono (Nat.le_succ _)) hafter
        fun s hs => hfree s (mem_cons_of_mem r hs)
      refine ⟨keptRange low r.start ++ r.text.map .fresh ++ X, Y, ?_, ?_, ?_⟩
      · rw [renderFrom, heq]
        simp only [append_assoc]
      · rw [mem_append, mem_append, mem_keptRange]
        rintro ((hmem | hmem) | hmem)
        · omega
        · obtain ⟨_, _, hx⟩ := mem_map.mp hmem
          cases hx
        · exact hnot hmem
      · rw [removed_cons, inserted_cons, if_pos (counts_true.mpr hafter),
          if_pos (counts_true.mpr hafter), length_append, length_append, length_keptRange,
          length_map]
        omega

/-- The position after a kept item, from the left. -/
theorem shift_succ (h : Spaced n low spans) (hfree : Free spans i) :
    removed spans (i + 1) false = removed spans i true ∧
      inserted spans (i + 1) false = inserted spans i true := by
  have hfilter : spans.filter (counts (i + 1) false) = spans.filter (counts i true) := by
    refine filter_congr fun r hr => ?_
    have hnot := hfree r hr
    have hle := (h.le_stop r hr).1
    rw [Bool.eq_iff_iff, counts_true]
    unfold counts
    simp only [Bool.false_or, or_eq_true, and_eq_true, decide_eq_true_eq]
    omega
  unfold removed inserted
  rw [hfilter]
  exact ⟨rfl, rfl⟩

/-- The end of the sequence. -/
theorem shift_end (h : Spaced n low spans) (hlow : low ≤ n) :
    (renderFrom n low spans).length + removed spans n true + low = n + inserted spans n true := by
  induction spans generalizing low with
  | nil =>
    rw [renderFrom, length_keptRange]
    simp only [removed, inserted, filter_nil, map_nil, sum_nil]
    omega
  | cons r spans ih =>
    obtain ⟨hstart, hle, hstop, hrest⟩ := h
    have hlen := ih (hrest.mono (Nat.le_succ _)) hstop
    rw [renderFrom, removed_cons, inserted_cons, if_pos (counts_true.mpr hstop),
      if_pos (counts_true.mpr hstop), length_append, length_append, length_keptRange,
      length_map]
    omega

/-- The two sides of a position differ by an insertion there. -/
theorem shift_sides {p : ℕ} (h : ∀ r ∈ spans, r.start = r.stop → r.start ≠ p) :
    removed spans p false = removed spans p true ∧ inserted spans p false = inserted spans p true := by
  have hfilter : spans.filter (counts p false) = spans.filter (counts p true) := by
    refine filter_congr fun r hr => ?_
    have hne := h r hr
    rw [Bool.eq_iff_iff, counts_true]
    unfold counts
    simp only [Bool.false_or, or_eq_true, and_eq_true, decide_eq_true_eq]
    omega
  unfold removed inserted
  rw [hfilter]
  exact ⟨rfl, rfl⟩

/-! ## Spans behind a concurrent edit -/

/-- Spans that may be applied in either order. -/
def Clear (l r : Span α) : Prop :=
  (l.start = l.stop → r.start = r.stop → l.start ≠ r.start) ∧
    (l.start = l.stop → r.start ≠ r.stop → ¬ (r.start < l.start ∧ l.start < r.stop)) ∧
    (l.start ≠ l.stop → r.start = r.stop → ¬ (l.start < r.start ∧ r.start < l.stop)) ∧
    (l.start ≠ l.stop → r.start ≠ r.stop → ¬ (l.start < r.stop ∧ r.start < l.stop))

/-- The span in the sequence that other spans have made. -/
def shifted (spans : List (Span α)) (r : Span α) : Span α :=
  ⟨r.start - removed spans r.start true + inserted spans r.start true,
    r.stop - removed spans r.stop false + inserted spans r.stop false, r.text⟩

namespace Edit

variable {e : Edit α}

theorem lt_of_mem_before {p : ℕ} (h : Token.kept i ∈ e.before p) : i < p ∧ e.cell i = none := by
  obtain ⟨j, hj, hmem⟩ := mem_flatMap.mp h
  have hlt := mem_range.mp hj
  rcases mem_append.mp hmem with hmem | hmem
  · obtain ⟨_, _, hx⟩ := mem_map.mp hmem
    cases hx
  unfold cellTokens at hmem
  split at hmem
  · next hnone =>
    obtain rfl := Token.kept.inj (mem_singleton.mp hmem)
    exact ⟨hlt, hnone⟩
  · obtain ⟨_, _, hx⟩ := mem_map.mp hmem
    cases hx

theorem notMem_gap (e : Edit α) (p : ℕ) : Token.kept i ∉ (e.gap p).map Token.fresh := by
  intro hmem
  obtain ⟨_, _, hx⟩ := mem_map.mp hmem
  cases hx

theorem cell_of_mem_render (h : Token.kept i ∈ e.render n) : e.cell i = none := by
  rcases mem_append.mp h with h | h
  · exact (lt_of_mem_before h).2
  · exact absurd h (e.notMem_gap n)

/-- The tokens before a kept item. -/
theorem render_kept (hi : i < n) (hcell : e.cell i = none) :
    ∃ Y, e.render n = (e.before i ++ (e.gap i).map .fresh) ++ .kept i :: Y ∧
      Token.kept i ∉ e.before i ++ (e.gap i).map .fresh := by
  refine ⟨(e.gap (i + 1)).map .fresh ++ e.after (i + 1) n, ?_, ?_⟩
  · rw [e.render_split hi.le, e.after_of_lt hi, cellTokens, hcell]
    simp only [append_assoc, cons_append, nil_append]
  · rw [mem_append]
    rintro (hmem | hmem)
    · exact absurd (lt_of_mem_before hmem).1 (lt_irrefl i)
    · exact e.notMem_gap i hmem

end Edit

/-- Where an element is first. -/
theorem eq_of_first {a : β} : ∀ {X X' Y Y' : List β}, X ++ a :: Y = X' ++ a :: Y' → a ∉ X → a ∉ X' →
    X = X'
  | [], [], _, _, _, _, _ => rfl
  | [], x :: X', _, _, h, _, hX' => absurd ((List.cons.inj h).1 ▸ mem_cons_self) hX'
  | x :: X, [], _, _, h, hX, _ => absurd ((List.cons.inj h).1 ▸ mem_cons_self) hX
  | x :: X, x' :: X', _, _, h, hX, hX' => by
    obtain ⟨rfl, htail⟩ := List.cons.inj h
    rw [eq_of_first htail (fun hmem => hX (mem_cons_of_mem x hmem)) fun hmem =>
      hX' (mem_cons_of_mem x hmem)]

section Concurrent

variable {e : Edit α} {others own : List (Span α)} {p q : ℕ}

/-- An item that the others have left stands where the shift says. -/
theorem length_before_of_free (hothers : Spaced n 0 others)
    (hrender : renderFrom n 0 others = e.render n) (hi : i < n) (hfree : Free others i) :
    e.cell i = none ∧ (e.before i ++ (e.gap i).map Token.fresh).length + removed others i true =
      i + inserted others i true := by
  obtain ⟨X, Y, heq, hnot, hlen⟩ := shift_kept hothers (Nat.zero_le i) hi hfree
  rw [hrender] at heq
  have hcell : e.cell i = none := Edit.cell_of_mem_render (n := n) (by
    rw [heq]
    exact mem_append_right X mem_cons_self)
  obtain ⟨Y', heq', hnot'⟩ := Edit.render_kept hi hcell
  rw [heq'] at heq
  rw [eq_of_first heq hnot' hnot]
  exact ⟨hcell, hlen⟩

/-- The gap after such an item. -/
theorem length_before_succ (hcell : e.cell i = none) :
    (e.before (i + 1)).length = (e.before i ++ (e.gap i).map Token.fresh).length + 1 := by
  rw [e.before_succ, Edit.cellTokens, hcell]
  simp only [length_append, length_singleton, length_map]
  omega

/-- Items without anything between them. -/
theorem length_before_add (hcells : ∀ i, p ≤ i → i < q → e.cell i = none)
    (hgaps : ∀ x, p < x → x < q → e.gap x = []) {k : ℕ} (hk : p + k < q) :
    (e.before (p + k) ++ (e.gap (p + k)).map Token.fresh).length =
      (e.before p ++ (e.gap p).map Token.fresh).length + k := by
  induction k with
  | zero => rfl
  | succ k ih =>
    have hsucc := length_before_succ (hcells (p + k) (by omega) (by omega))
    have hprev := ih (by omega)
    rw [← Nat.add_assoc, hgaps (p + k + 1) (by omega) (by omega), map_nil, append_nil]
    omega

/-- A gap between two such items is empty, if the others have not inserted there. -/
theorem gap_of_free (hothers : Spaced n 0 others) (hrender : renderFrom n 0 others = e.render n)
    (hi : i + 1 < n) (hfree : Free others i) (hfree' : Free others (i + 1))
    (hnone : ∀ r ∈ others, r.start = r.stop → r.start ≠ i + 1) : e.gap (i + 1) = [] := by
  obtain ⟨hcell, hlen⟩ := length_before_of_free hothers hrender (by omega) hfree
  obtain ⟨-, hlen'⟩ := length_before_of_free hothers hrender hi hfree'
  obtain ⟨hremoved, hinserted⟩ := shift_succ hothers hfree
  obtain ⟨hremoved', hinserted'⟩ := shift_sides hnone
  have hsucc := length_before_succ hcell
  rw [length_append, length_map] at hlen'
  refine eq_nil_of_length_eq_zero ?_
  omega

/-- The spans of others leave the items of a span that is clear of them. -/
theorem free_of_clear {r : Span α} (hclear : ∀ s ∈ others, Clear r s) (hothers : Spaced n 0 others)
    (hr : r.start ≠ r.stop) (hi : r.start ≤ i) (hi' : i < r.stop) : Free others i := by
  intro s hs hboth
  have hle := (hothers.le_stop s hs).1
  have hnot := (hclear s hs).2.2.2 hr (by omega)
  omega

/-- A gap that an insertion is clear to go into. -/
theorem length_before_of_clear {r : Span α} (hothers : Spaced n 0 others)
    (hrender : renderFrom n 0 others = e.render n) (hclear : ∀ s ∈ others, Clear r s)
    (hr : r.start = r.stop) (hp : r.start ≤ n) (hgap : e.gap r.start = []) :
    (e.before r.start).length + removed others r.start true =
      r.start + inserted others r.start true := by
  have hnone : ∀ s ∈ others, s.start = s.stop → s.start ≠ r.start := fun s hs hempty heq =>
    (hclear s hs).1 hr hempty heq.symm
  have hhere : ∀ hlt : r.start < n, Free others r.start →
      (e.before r.start).length + removed others r.start true =
        r.start + inserted others r.start true := by
    intro hlt hfree
    obtain ⟨-, hlen⟩ := length_before_of_free hothers hrender hlt hfree
    rwa [hgap, map_nil, append_nil] at hlen
  rcases Nat.eq_zero_or_pos r.start with hzero | hpos
  · -- nothing of the others ends at the beginning
    have hnothing := removed_eq_zero others (p := r.start) true (by
      intro s hs
      have hle := (hothers.le_stop s hs).1
      have hne := hnone s hs
      omega)
    rw [hnothing.1, hnothing.2, hzero]
    rfl
  by_cases hbefore : Free others (r.start - 1)
  · obtain ⟨hcell, hlen⟩ := length_before_of_free hothers hrender (by omega) hbefore
    obtain ⟨hremoved, hinserted⟩ := shift_succ hothers hbefore
    obtain ⟨hremoved', hinserted'⟩ := shift_sides hnone
    have hsucc := length_before_succ hcell
    rw [Nat.sub_add_cancel hpos] at hsucc hremoved hinserted
    omega
  by_cases hlt : r.start < n
  · refine hhere hlt fun s hs hboth => hbefore fun s' hs' hboth' => ?_
    -- one span would cover both neighbours, and the insertion would be inside it
    rcases hothers.trichotomy hs hs' with rfl | hcases | hcases
    · have hnot := (hclear s hs).2.1 hr (by omega)
      omega
    · omega
    · omega
  have hend := shift_end hothers (Nat.zero_le n)
  rw [hrender] at hend
  have hpn : r.start = n := by omega
  rw [hpn] at hgap ⊢
  unfold Edit.render at hend
  rw [hgap, map_nil, append_nil] at hend
  omega

/-- **Spans that are moved behind a concurrent edit give, on its result, the edit of both.** -/
theorem spliceAll_shifted (hothers : Spaced n 0 others) (hrender : renderFrom n 0 others = e.render n)
    (hown : Spaced n low own) (hclear : ∀ r ∈ own, ∀ s ∈ others, Clear r s)
    (hgaps : ∀ r ∈ own, r.start = r.stop → e.gap r.start = []) :
    spliceAll (own.map fun r => (shifted others r).map .fresh) (e.render n) =
      (e.putAll own).render n := by
  induction own generalizing low with
  | nil => rfl
  | cons r own ih =>
    obtain ⟨-, hle, hstop, hrest⟩ := hown
    have hih := ih hrest (fun r' hr' => hclear r' (mem_cons_of_mem r hr')) fun r' hr' =>
      hgaps r' (mem_cons_of_mem r hr')
    have hclear := hclear r mem_cons_self
    rw [map_cons, spliceAll, foldr_cons, ← spliceAll, hih, Edit.putAll_cons]
    -- what was put so far is behind the span
    have hfar : ∀ s ∈ own, r.stop < s.start := fun s hs => hrest.le_start s hs
    have hgap : ∀ x, x ≤ r.stop → (e.putAll own).gap x = e.gap x := fun x hx =>
      Edit.putAll_gap_apply fun s hs _ => by
        have := hfar s hs
        omega
    have hcell : ∀ x, x ≤ r.stop → (e.putAll own).cell x = e.cell x := fun x hx =>
      Edit.putAll_cell_apply fun s hs hboth => by
        have := hfar s hs
        omega
    have hbefore : ∀ x, x ≤ r.stop → (e.putAll own).before x = e.before x := fun x hx =>
      Edit.before_congr (fun i hi => hgap i (by omega)) fun i hi => hcell i (by omega)
    obtain ⟨p, q, text⟩ := r
    dsimp only at hle hstop hfar hgap hcell hbefore
    rcases Nat.eq_or_lt_of_le hle with rfl | hlt
    · have hempty := hgaps _ mem_cons_self rfl
      have hlen := length_before_of_clear hothers hrender hclear rfl hstop hempty
      obtain ⟨hremoved, hinserted⟩ := shift_sides fun s hs hs' heq =>
        (hclear s hs).1 rfl hs' heq.symm
      dsimp only at hempty hlen hremoved hinserted
      have hpos : p - removed others p true + inserted others p true =
          ((e.putAll own).before p).length := by
        have := removed_le hothers p true
        rw [hbefore p le_rfl]
        omega
      rw [← Edit.splice_put_insert hstop ((hgap p le_rfl).trans hempty)]
      unfold shifted Span.map
      dsimp only
      rw [hremoved, hinserted, hpos]
    · have hne : (⟨p, q, text⟩ : Span α).start ≠ (⟨p, q, text⟩ : Span α).stop := Nat.ne_of_lt hlt
      have hfree : ∀ i, p ≤ i → i < q → Free others i := fun i hi hi' =>
        free_of_clear hclear hothers hne hi hi'
      have hcells : ∀ i, p ≤ i → i < q → e.cell i = none := fun i hi hi' =>
        (length_before_of_free hothers hrender (by omega) (hfree i hi hi')).1
      have hinner : ∀ x, p < x → x < q → e.gap x = [] := fun x hx hx' => by
        obtain ⟨i, rfl⟩ : ∃ i, x = i + 1 := ⟨x - 1, by omega⟩
        exact gap_of_free hothers hrender (by omega) (hfree i (by omega) (by omega))
          (hfree (i + 1) hx.le hx') fun s hs hs' heq =>
            (hclear s hs).2.2.1 hne hs' (by dsimp only; omega)
      -- the first item and the one before the end say where the span is now
      have hfirst := (length_before_of_free hothers hrender (by omega) (hfree p le_rfl hlt)).2
      have hlast := (length_before_of_free hothers hrender (by omega)
        (hfree (q - 1) (by omega) (by omega))).2
      obtain ⟨hremoved, hinserted⟩ := shift_succ hothers (hfree (q - 1) (by omega) (by omega))
      rw [Nat.sub_add_cancel (by omega)] at hremoved hinserted
      have hlen := length_before_add hcells hinner (k := q - 1 - p) (by omega)
      rw [show p + (q - 1 - p) = q - 1 by omega] at hlen
      have hstart : p - removed others p true + inserted others p true =
          ((e.putAll own).before p ++ ((e.putAll own).gap p).map Token.fresh).length := by
        have := removed_le hothers p true
        rw [hbefore p hle, hgap p hle]
        omega
      have hend : q - removed others q false + inserted others q false =
          ((e.putAll own).before p ++ ((e.putAll own).gap p).map Token.fresh).length + (q - p) := by
        have := removed_le hothers q false
        rw [hbefore p hle, hgap p hle]
        omega
      rw [← Edit.splice_put_span hlt hstop (fun i hi hi' => by rw
                                                                 [hcell i hi'.le];
                                                                   exact hcells i hi hi')
        fun x hx hx' => by rw [hgap x hx'.le]; exact hinner x hx hx']
      unfold shifted Span.map
      dsimp only
      rw [hstart, hend]

end Concurrent

/-! ## Spans of the sequence itself -/

theorem Edit.render_empty (n : ℕ) : (Edit.empty : Edit α).render n = keptRange 0 n := by
  have hbefore : (Edit.empty : Edit α).before n = (List.range n).flatMap fun i => [.kept i] := rfl
  have hgap : (Edit.empty : Edit α).gap n = [] := rfl
  rw [Edit.render, hbefore, hgap, map_nil, append_nil, keptRange, Nat.sub_zero,
    range_eq_range', ← flatMap_pure_eq_map]
  rfl

theorem spliceAll_eq_renderFrom (h : Spaced n low spans) (hlow : low ≤ n) :
    spliceAll (spans.map (Span.map .fresh)) (keptRange 0 n) =
      keptRange 0 low ++ renderFrom n low spans := by
  induction spans generalizing low with
  | nil => exact (keptRange_append (Nat.zero_le low) hlow).symm
  | cons r spans ih =>
    obtain ⟨hstart, hle, hstop, hrest⟩ := h
    have hlen : (keptRange (α := α) 0 r.stop).length = r.stop := by rw [length_keptRange, Nat.sub_zero]
    rw [map_cons, spliceAll, foldr_cons, ← spliceAll, ih (hrest.mono (Nat.le_succ _)) hstop,
      renderFrom]
    have htake : (keptRange 0 r.stop ++ renderFrom n r.stop spans).take r.start =
        keptRange 0 low ++ keptRange low r.start := by
      rw [keptRange_append (Nat.zero_le low) hstart, ← keptRange_append (Nat.zero_le _) hle,
        append_assoc, take_append_of_le_length (by simp), take_of_length_le (by simp)]
    have hdrop : (keptRange 0 r.stop ++ renderFrom n r.stop spans).drop r.stop =
        renderFrom n r.stop spans := drop_left' hlen
    unfold splice
    dsimp only [Span.map]
    rw [htake, hdrop]
    simp only [append_assoc]

/-- **The tokens of spans are those of their edit.** -/
theorem render_putAll_empty (h : Spaced n 0 spans) :
    ((Edit.empty : Edit α).putAll spans).render n = renderFrom n 0 spans := by
  have hnothing : Spaced n 0 ([] : List (Span α)) := trivial
  have hshift := spliceAll_shifted hnothing (Edit.render_empty n).symm h
    (nofun) fun _ _ _ => rfl
  rw [← hshift, Edit.render_empty]
  have hall := spliceAll_eq_renderFrom h (Nat.zero_le n)
  rw [show keptRange (α := α) 0 0 = [] from rfl, nil_append] at hall
  rw [← hall]
  rfl

end SpanEdit
