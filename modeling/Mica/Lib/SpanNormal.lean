import Mathlib.Data.List.TakeWhile
import Mica.Lib.SpanEdit

/-!
# Lib/SpanNormal — spans that are read off the tokens

A list of spaced spans without empty insertions is the only one with its tokens
(`renderFrom_injective`), so that it may be read off them.  `insertions` lists the gaps into which
the tokens insert.
-/

open List Bool

namespace SpanEdit

variable {α β : Type} {n m low : ℕ} {spans spans' : List (Span α)} {r : Span α}

/-- What is left when a test has failed once, on a list along which it does not come back. -/
theorem not_of_mem_dropWhile {p : β → Bool} {l : List β}
    (h : l.Pairwise fun a b => p b = true → p a = true) : ∀ x ∈ l.dropWhile p, ¬ p x = true := by
  induction l with
  | nil => exact nofun
  | cons a l ih =>
    obtain ⟨ha, hl⟩ := pairwise_cons.mp h
    rw [dropWhile_cons]
    split
    · exact ih hl
    rename_i hfail
    intro x hx hpx
    rcases mem_cons.mp hx with rfl | hx
    · exact hfail hpx
    · exact hfail (ha x hx hpx)

/-! ## Growing at the end -/

theorem Spaced.upto (h : Spaced m low spans) (hle : m ≤ n) : Spaced n low spans := by
  induction spans generalizing low with
  | nil => trivial
  | cons s spans ih => exact ⟨h.1, h.2.1, h.2.2.1.trans hle, ih h.2.2.2⟩

theorem Spaced.snoc (h : Spaced n low spans) (hbehind : ∀ s ∈ spans, s.stop < r.start)
    (hlow : low ≤ r.start) (hle : r.start ≤ r.stop) (hstop : r.stop ≤ n) :
    Spaced n low (spans ++ [r]) := by
  induction spans generalizing low with
  | nil => exact ⟨hlow, hle, hstop, trivial⟩
  | cons s spans ih =>
    exact ⟨h.1, h.2.1, h.2.2.1, ih h.2.2.2 (fun s' hs' => hbehind s' (mem_cons_of_mem s hs'))
      (hbehind s mem_cons_self)⟩

theorem spaced_of_pairwise (hordered : ∀ r ∈ spans, r.start ≤ r.stop)
    (hrange : ∀ r ∈ spans, r.stop ≤ n)
    (hapart : spans.Pairwise fun r s => r.stop < s.start) (hlow : ∀ r ∈ spans, low ≤ r.start) :
    Spaced n low spans := by
  induction spans generalizing low with
  | nil => trivial
  | cons r spans ih =>
    obtain ⟨hfirst, hrest⟩ := pairwise_cons.mp hapart
    exact ⟨hlow r mem_cons_self, hordered r mem_cons_self, hrange r mem_cons_self,
      ih (fun s hs => hordered s (mem_cons_of_mem r hs))
        (fun s hs => hrange s (mem_cons_of_mem r hs)) hrest hfirst⟩

theorem renderFrom_snoc : ∀ (low : ℕ) (spans : List (Span α)), renderFrom n low (spans ++ [r]) =
    renderFrom r.start low spans ++ r.text.map .fresh ++ keptRange r.stop n
  | _, [] => rfl
  | low, s :: spans => by
    rw [cons_append, renderFrom, renderFrom_snoc s.stop spans, renderFrom]
    simp only [append_assoc]

theorem renderFrom_upto (hstop : ∀ s ∈ spans, s.stop ≤ m) (hlow : low ≤ m) (hle : m ≤ n) :
    renderFrom n low spans = renderFrom m low spans ++ keptRange m n := by
  induction spans generalizing low with
  | nil => exact (keptRange_append hlow hle).symm
  | cons s spans ih =>
    rw [renderFrom, renderFrom, ih (fun s' hs' => hstop s' (mem_cons_of_mem s hs'))
      (hstop s mem_cons_self)]
    simp only [append_assoc]

/-! ## A position that no span covers -/

/-- Such a position is moved to a place in the result. -/
theorem shift_le {p : ℕ} (h : Spaced n low spans) (hlow : low ≤ p) (hp : p ≤ n) (side : Bool)
    (hout : ∀ s ∈ spans, ¬ (s.start < p ∧ p < s.stop)) :
    p + inserted spans p side ≤ (renderFrom n low spans).length + removed spans p side + low := by
  induction spans generalizing low with
  | nil =>
    rw [renderFrom, length_keptRange]
    simp only [removed, inserted, filter_nil, map_nil, sum_nil]
    omega
  | cons s spans ih =>
    obtain ⟨hstart, hle, hstop, hrest⟩ := h
    have houts := hout s mem_cons_self
    rw [renderFrom, removed_cons, inserted_cons, length_append, length_append,
      length_keptRange, length_map]
    cases hcounts : counts p side s with
    | true =>
      have hbefore : s.stop ≤ p := by
        unfold counts at hcounts
        simp only [or_eq_true, and_eq_true, decide_eq_true_eq] at hcounts
        omega
      have hmore := ih (hrest.mono (Nat.le_succ _)) hbefore fun s' hs' =>
        hout s' (mem_cons_of_mem s hs')
      rw [if_pos rfl, if_pos rfl]
      omega
    | false =>
      have hbehind : p ≤ s.start := by
        unfold counts at hcounts
        simp only [or_eq_false_iff, and_eq_false_iff, decide_eq_false_iff_not] at hcounts
        omega
      obtain ⟨hremoved, hinserted⟩ := removed_eq_zero spans (p := p) side fun s' hs' => by
        have := hrest.le_start s' hs'
        have := (hrest.le_stop s' hs').1
        omega
      rw [hremoved, hinserted, if_neg Bool.false_ne_true, if_neg Bool.false_ne_true]
      omega

/-- **Positions stay in order**, if no span covers the first. -/
theorem shift_mono {p q : ℕ} (h : Spaced n low spans) (side side' : Bool)
    (hout : ∀ s ∈ spans, ¬ (s.start < p ∧ p < s.stop)) (hlt : p < q) :
    removed spans q side' ≤ removed spans p side + (q - p) ∧
      inserted spans p side ≤ inserted spans q side' := by
  induction spans generalizing low with
  | nil => exact ⟨Nat.zero_le _, le_rfl⟩
  | cons s spans ih =>
    obtain ⟨hstart, hle, hstop, hrest⟩ := h
    have hcovers := hout s mem_cons_self
    obtain ⟨hremoved, hinserted⟩ := ih hrest fun s' hs' => hout s' (mem_cons_of_mem s hs')
    rw [removed_cons, removed_cons, inserted_cons, inserted_cons]
    by_cases hbefore : s.stop ≤ p
    · have hcounts : counts q side' s = true := by
        unfold counts
        simp only [or_eq_true, decide_eq_true_eq]
        exact .inl (by omega)
      rw [if_pos hcounts, if_pos hcounts]
      by_cases hcounts' : counts p side s = true
      · rw [if_pos hcounts', if_pos hcounts']
        omega
      -- an insertion at the position itself removes nothing
      have hempty : s.stop - s.start = 0 := by
        unfold counts at hcounts'
        simp only [or_eq_true, and_eq_true, decide_eq_true_eq] at hcounts'
        omega
      rw [if_neg hcounts', if_neg hcounts']
      omega
    · have hcounts : ¬ counts p side s = true := by
        unfold counts
        simp only [or_eq_true, and_eq_true, decide_eq_true_eq]
        omega
      obtain ⟨hnone, hnone'⟩ := removed_eq_zero spans (p := p) side fun s' hs' => by
        have := hrest.le_start s' hs'
        have := (hrest.le_stop s' hs').1
        omega
      have hfew := removed_le hrest q side'
      rw [if_neg hcounts, if_neg hcounts]
      split
      · next hcounts' =>
        have hends : s.stop ≤ q := by
          unfold counts at hcounts'
          simp only [or_eq_true, and_eq_true, decide_eq_true_eq] at hcounts'
          omega
        omega
      · omega

/-- The ends of a span that is clear of others are not covered by them. -/
theorem Clear.outside {s : Span α} (h : Clear r s) (hle : r.start ≤ r.stop) (hle' : s.start ≤ s.stop) :
    ¬ (s.start < r.start ∧ r.start < s.stop) ∧ ¬ (s.start < r.stop ∧ r.stop < s.stop) := by
  unfold Clear at h
  omega

/-- **A span behind others** starts before it ends. -/
theorem le_shifted {others : List (Span α)} (hothers : Spaced n low others)
    (hclear : ∀ s ∈ others, Clear r s) (hle : r.start ≤ r.stop) :
    (shifted others r).start ≤ (shifted others r).stop := by
  unfold shifted
  dsimp only
  have hout : ∀ s ∈ others, ¬ (s.start < r.start ∧ r.start < s.stop) := fun s hs =>
    ((hclear s hs).outside hle (hothers.le_stop s hs).1).1
  rcases hle.eq_or_lt with heq | hlt
  · have hstart : ∀ s ∈ others, s.start = s.stop → s.start ≠ r.start := fun s hs hempty hat =>
      (hclear s hs).1 heq hempty hat.symm
    obtain ⟨hremoved, hinserted⟩ := shift_sides hstart
    rw [← heq, hremoved, hinserted]
  · obtain ⟨hremoved, hinserted⟩ := shift_mono hothers true false hout hlt
    have := removed_le hothers r.start true
    have := removed_le hothers r.stop false
    omega

/-- Spans behind others stay in order. -/
theorem shifted_stop_le {others : List (Span α)} {s : Span α} (hothers : Spaced n low others)
    (hclear : ∀ t ∈ others, Clear r t) (hle : r.start ≤ r.stop) (hlt : r.stop < s.start) :
    (shifted others r).stop ≤ (shifted others s).start := by
  unfold shifted
  dsimp only
  obtain ⟨hremoved, hinserted⟩ := shift_mono hothers false true (fun t ht =>
    ((hclear t ht).outside hle (hothers.le_stop t ht).1).2) hlt
  have := removed_le hothers r.stop false
  have := removed_le hothers s.start true
  omega

/-! ## The spans of given tokens -/

/-- No span is an insertion of nothing. -/
def Solid (spans : List (Span α)) : Prop := ∀ r ∈ spans, r.start = r.stop → r.text ≠ []

theorem Solid.tail (h : Solid (r :: spans)) : Solid spans := fun s hs => h s (mem_cons_of_mem r hs)

/-- Nothing is after the end. -/
theorem Spaced.eq_nil (h : Spaced n (n + 1) spans) : spans = [] := by
  cases spans with
  | nil => rfl
  | cons s spans =>
    have := h.1
    have := h.2.1
    have := h.2.2.1
    omega

/-- The tokens from a position that no span starts at. -/
theorem renderFrom_of_lt (h : Spaced n (low + 1) spans) (hlow : low < n) :
    renderFrom n low spans = .kept low :: renderFrom n (low + 1) spans := by
  cases spans with
  | nil => exact keptRange_of_lt hlow
  | cons s spans =>
    rw [renderFrom, renderFrom, keptRange_of_lt (Nat.lt_of_succ_le h.1)]
    rfl

theorem le_of_mem_renderFrom {i : ℕ} (h : Spaced n low spans)
    (hmem : Token.kept i ∈ renderFrom n low spans) : low ≤ i := by
  induction spans generalizing low with
  | nil => exact (mem_keptRange.mp hmem).1
  | cons s spans ih =>
    obtain ⟨hstart, hle, hstop, hrest⟩ := h
    rw [renderFrom, mem_append, mem_append, mem_keptRange] at hmem
    rcases hmem with (hmem | hmem) | hmem
    · exact hmem.1
    · obtain ⟨_, _, hx⟩ := mem_map.mp hmem
      cases hx
    · exact hstart.trans (hle.trans (ih (hrest.mono (Nat.le_succ _)) hmem))

/-- After a span the tokens do not go on with the item that is next. -/
theorem head_ne_kept (h : Spaced n low (r :: spans)) (hsolid : Solid (r :: spans))
    (rest : List (Token α)) :
    r.text.map .fresh ++ renderFrom n r.stop spans ≠ .kept r.start :: rest := by
  intro heq
  cases htext : r.text with
  | nil =>
    have hne : r.start ≠ r.stop := fun hempty => hsolid r mem_cons_self hempty htext
    rw [htext, map_nil, nil_append] at heq
    have hmem : Token.kept r.start ∈ renderFrom n r.stop spans := heq ▸ mem_cons_self
    have hle := le_of_mem_renderFrom (h.2.2.2.mono (Nat.le_succ _)) hmem
    have := h.2.1
    omega
  | cons c text =>
    rw [htext] at heq
    cases (List.cons.inj heq).1

/-- What is new stands before what is kept. -/
theorem fresh_split : ∀ {text text' : List α} {X Y : List (Token α)},
    text.map Token.fresh ++ X = text'.map Token.fresh ++ Y →
    (∀ c rest, X ≠ .fresh c :: rest) → (∀ c rest, Y ≠ .fresh c :: rest) → text = text' ∧ X = Y
  | [], [], _, _, h, _, _ => ⟨rfl, h⟩
  | [], c :: text', _, _, h, hX, _ => absurd h (hX c _)
  | c :: text, [], _, _, h, _, hY => absurd h.symm (hY c _)
  | c :: text, c' :: text', _, _, h, hX, hY => by
    obtain ⟨hc, htail⟩ := List.cons.inj h
    obtain ⟨rfl, hXY⟩ := fresh_split htail hX hY
    rw [Token.fresh.inj hc]
    exact ⟨rfl, hXY⟩

theorem renderFrom_ne_fresh (h : Spaced n (low + 1) spans) (hlow : low ≤ n) (c : α)
    (rest : List (Token α)) : renderFrom n low spans ≠ .fresh c :: rest := by
  rcases Nat.eq_or_lt_of_le hlow with rfl | hlt
  · rw [h.eq_nil, renderFrom, keptRange, Nat.sub_self]
    exact (cons_ne_nil _ _).symm
  · rw [renderFrom_of_lt h hlt]
    rintro ⟨⟩

/-- The tokens of a span are not just what is there. -/
theorem renderFrom_cons_ne (h : Spaced n low (r :: spans)) (hsolid : Solid (r :: spans)) :
    renderFrom n low (r :: spans) ≠ keptRange low n := by
  intro heq
  obtain ⟨hstart, hle, hstop, -⟩ := id h
  rw [renderFrom, ← keptRange_append hstart (hle.trans hstop), append_assoc] at heq
  have htail := append_cancel_left heq
  rcases Nat.eq_or_lt_of_le (hle.trans hstop) with hend | hlt
  · -- an insertion at the end
    have hempty : r.start = r.stop := by omega
    rw [hend, keptRange, Nat.sub_self] at htail
    obtain ⟨htext, -⟩ := append_eq_nil_iff.mp htail
    exact hsolid r mem_cons_self hempty (map_eq_nil_iff.mp htext)
  · rw [keptRange_of_lt hlt] at htail
    exact head_ne_kept h hsolid _ htail

/-- No list starts a span where the other goes on. -/
theorem start_le_of_renderFrom_eq {r' : Span α} (h : Spaced n low (r :: spans))
    (hsolid : Solid (r :: spans))
    (heq : renderFrom n low (r :: spans) = renderFrom n low (r' :: spans')) :
    r'.start ≤ r.start := by
  by_contra hlt
  rw [not_le] at hlt
  rw [renderFrom, renderFrom, ← keptRange_append h.1 hlt.le, append_assoc, append_assoc,
    append_assoc] at heq
  have htail := append_cancel_left heq
  rw [keptRange_of_lt hlt] at htail
  exact head_ne_kept h hsolid _ htail

/-- The tokens say where they start. -/
theorem low_le_of_renderFrom_eq {low' : ℕ} (h : Spaced n (low + 1) spans)
    (h' : Spaced n (low' + 1) spans') (hlow' : low' ≤ n)
    (heq : renderFrom n low spans = renderFrom n low' spans') : low' ≤ low := by
  by_cases hlt : low < n
  · have hmem : Token.kept low ∈ renderFrom n low' spans' := by
      rw [← heq, renderFrom_of_lt h hlt]
      exact mem_cons_self
    exact le_of_mem_renderFrom (h'.mono (Nat.le_succ _)) hmem
  · omega

/-- **The spans are determined by their tokens.** -/
theorem renderFrom_injective (h : Spaced n low spans) (h' : Spaced n low spans')
    (hsolid : Solid spans) (hsolid' : Solid spans')
    (heq : renderFrom n low spans = renderFrom n low spans') : spans = spans' := by
  induction spans generalizing low spans' with
  | nil =>
    cases spans' with
    | nil => rfl
    | cons r' spans' => exact absurd heq.symm (renderFrom_cons_ne h' hsolid')
  | cons r spans ih =>
    cases spans' with
    | nil => exact absurd heq (renderFrom_cons_ne h hsolid)
    | cons r' spans' =>
      have hstart : r.start = r'.start := le_antisymm (start_le_of_renderFrom_eq h' hsolid' heq.symm)
        (start_le_of_renderFrom_eq h hsolid heq)
      obtain ⟨-, -, hstop, hrest⟩ := h
      obtain ⟨-, -, hstop', hrest'⟩ := h'
      rw [renderFrom, renderFrom, hstart, append_assoc, append_assoc] at heq
      obtain ⟨htext, htail⟩ := fresh_split (append_cancel_left heq)
        (renderFrom_ne_fresh hrest hstop) (renderFrom_ne_fresh hrest' hstop')
      have hend : r.stop = r'.stop := le_antisymm
        (low_le_of_renderFrom_eq hrest' hrest hstop htail.symm)
        (low_le_of_renderFrom_eq hrest hrest' hstop' htail)
      have hspans := ih (hrest.mono (Nat.le_succ _)) (by rw [hend]; exact hrest'.mono (Nat.le_succ _))
        hsolid.tail hsolid'.tail (by rw [htail, hend])
      obtain ⟨start, stop, text⟩ := r
      obtain ⟨start', stop', text'⟩ := r'
      dsimp only at hstart hend htext
      rw [hstart, hend, htext, hspans]

/-! ## The gaps into which tokens insert -/

/-- The gaps, from a position on; whether something new stands before it is remembered. -/
def insertionsFrom (n : ℕ) : ℕ → Bool → List (Token α) → List ℕ
  | next, pending, [] => if pending && next == n then [n] else []
  | next, _, .fresh _ :: tokens => insertionsFrom n next true tokens
  | next, pending, .kept i :: tokens =>
    if pending && next == i then next :: insertionsFrom n (i + 1) false tokens
    else insertionsFrom n (i + 1) false tokens

/-- The gaps in which there is something new between items that are both kept. -/
def insertions (n : ℕ) (tokens : List (Token α)) : List ℕ := insertionsFrom n 0 false tokens

theorem insertionsFrom_fresh (next : ℕ) (tokens : List (Token α)) :
    ∀ (pending : Bool) (text : List α), text ≠ [] →
      insertionsFrom n next pending (text.map .fresh ++ tokens) = insertionsFrom n next true tokens
  | _, [_], _ => rfl
  | _, _ :: d :: text, _ => insertionsFrom_fresh next tokens true (d :: text) nofun

theorem insertionsFrom_keptRange (tokens : List (Token α)) : ∀ {high low : ℕ}, low ≤ high →
    insertionsFrom n low false (keptRange low high ++ tokens) =
      insertionsFrom n high false tokens := by
  intro high low h
  induction h using Nat.decreasingInduction with
  | self =>
    rw [keptRange, Nat.sub_self]
    rfl
  | of_succ k hk ih =>
    rw [keptRange_of_lt hk, cons_append, insertionsFrom, ih]
    rfl

/-- Something new before an item that is next. -/
theorem mem_insertionsFrom_true (h : Spaced n (low + 1) spans) (hlow : low ≤ n) :
    low ∈ insertionsFrom n low true (renderFrom n low spans) := by
  rcases Nat.eq_or_lt_of_le hlow with rfl | hlt
  · rw [h.eq_nil, renderFrom, keptRange, Nat.sub_self]
    simp [insertionsFrom]
  · rw [renderFrom_of_lt h hlt, insertionsFrom]
    simp

/-- From an item that is next, what stands before it does not matter to later gaps. -/
theorem mem_insertionsFrom_of_mem {q next : ℕ} {pending : Bool} (h : Spaced n (low + 1) spans)
    (hlow : low ≤ n) (hmem : q ∈ insertionsFrom n low false (renderFrom n low spans)) :
    q ∈ insertionsFrom n next pending (renderFrom n low spans) := by
  rcases Nat.eq_or_lt_of_le hlow with rfl | hlt
  · rw [h.eq_nil, renderFrom, keptRange, Nat.sub_self] at hmem
    cases hmem
  rw [renderFrom_of_lt h hlt, insertionsFrom] at hmem ⊢
  rw [Bool.false_and, if_neg Bool.false_ne_true] at hmem
  split
  · exact mem_cons_of_mem next hmem
  · exact hmem

/-- **An insertion of the spans is one of the tokens.** -/
theorem mem_insertions (h : Spaced n low spans) (hsolid : Solid spans) (hr : r ∈ spans)
    (hempty : r.start = r.stop) : r.start ∈ insertionsFrom n low false (renderFrom n low spans) := by
  induction spans generalizing low with
  | nil => exact nomatch hr
  | cons s spans ih =>
    obtain ⟨hstart, hle, hstop, hrest⟩ := h
    rw [renderFrom, append_assoc, insertionsFrom_keptRange _ hstart]
    rcases mem_cons.mp hr with rfl | hr
    · rw [insertionsFrom_fresh _ _ _ _ (hsolid r mem_cons_self hempty), hempty]
      exact mem_insertionsFrom_true hrest hstop
    have hmem := ih (hrest.mono (Nat.le_succ _)) hsolid.tail hr
    by_cases htext : s.text = []
    · rw [htext, map_nil, nil_append]
      exact mem_insertionsFrom_of_mem hrest hstop hmem
    · rw [insertionsFrom_fresh _ _ _ _ htext]
      exact mem_insertionsFrom_of_mem hrest hstop hmem

/-! ## Kept items -/

/-- The items that are kept stand in their order. -/
def Rising (tokens : List (Token α)) : Prop :=
  tokens.Pairwise fun a b => ∀ i j, a = .kept i → b = .kept j → i < j

theorem rising_keptRange (low high : ℕ) : Rising (keptRange (α := α) low high) := by
  refine pairwise_map.mpr (List.Pairwise.imp ?_ (pairwise_lt_range' _ Nat.one_pos))
  intro a b hlt i j hi hj
  obtain rfl := Token.kept.inj hi
  obtain rfl := Token.kept.inj hj
  exact hlt

theorem Rising.splice {tokens : List (Token α)} (h : Rising tokens) {start stop : ℕ}
    (hle : start ≤ stop) (text : List α) :
    Rising (splice tokens start stop (text.map Token.fresh)) := by
  have hsub : (tokens.take start ++ tokens.drop stop).Sublist tokens := by
    conv_rhs => rw [← take_append_drop start tokens]
    refine List.Sublist.append_left ?_ _
    rw [← Nat.add_sub_cancel' hle, ← drop_drop]
    exact drop_sublist _ _
  obtain ⟨htake, hdrop, hcross⟩ := pairwise_append.mp (h.sublist hsub)
  have hfresh : ∀ t ∈ text.map (Token.fresh (α := α)), ∀ i, t ≠ .kept i := by
    intro t ht i
    obtain ⟨_, _, rfl⟩ := mem_map.mp ht
    exact nofun
  refine pairwise_append.mpr ⟨pairwise_append.mpr ⟨htake, ?_, ?_⟩, hdrop, ?_⟩
  · exact pairwise_of_forall_mem_list fun a ha _ _ i _ hi => absurd hi (hfresh a ha i)
  · exact fun _ _ b hb _ j _ hj => absurd hj (hfresh b hb j)
  · intro a ha b hb
    rcases mem_append.mp ha with ha | ha
    · exact hcross a ha b hb
    · exact fun i _ hi => absurd hi (hfresh a ha i)

/-- **The kept items are those outside the spans.** -/
theorem mem_renderFrom_iff {i : ℕ} (h : Spaced n 0 spans) (hi : i < n) :
    Token.kept i ∈ renderFrom n 0 spans ↔ Free spans i := by
  rw [← render_putAll_empty h]
  constructor
  · intro hmem r hr hin
    exact Edit.putAll_cell_ne_none (Or.inr ⟨r, hr, hin⟩) (Edit.cell_of_mem_render hmem)
  intro hfree
  have hcell : ((Edit.empty : Edit α).putAll spans).cell i = none :=
    Edit.putAll_cell_apply hfree
  obtain ⟨Y, hY, -⟩ := Edit.render_kept hi hcell
  rw [hY]
  exact mem_append_right _ mem_cons_self

end SpanEdit
