import Mathlib.Data.List.Sort

/-!
# Lib/SortedList — sets and maps kept as strictly sorted lists

Sorting a list and dropping repeated neighbours (`sortDedup`) gives *the* strictly sorted list with
the same members; `lastWins` does the same for entries sorted by key, keeping the last value of each
key.  Both leave a list that is already strictly sorted alone.
-/

open List

namespace SortedList

variable {α κ β : Type} [LinearOrder α] [LinearOrder κ]

/-! ## Sets -/

/-- Drop every element equal to the one after it. -/
def dedupAdjacent : List α → List α
  | [] => []
  | [a] => [a]
  | a :: b :: l => if a = b then dedupAdjacent (b :: l) else a :: dedupAdjacent (b :: l)

theorem mem_dedupAdjacent {x : α} : ∀ {l : List α}, x ∈ dedupAdjacent l ↔ x ∈ l
  | [] => Iff.rfl
  | [_] => Iff.rfl
  | a :: b :: l => by
    rw [dedupAdjacent]
    split
    · next h => simp only [mem_dedupAdjacent, h, mem_cons, or_self_left]
    · simp only [mem_cons, mem_dedupAdjacent]

theorem pairwise_dedupAdjacent : ∀ {l : List α}, l.Pairwise (· ≤ ·) →
    (dedupAdjacent l).Pairwise (· < ·)
  | [], _ => List.Pairwise.nil
  | [_], _ => pairwise_singleton _ _
  | a :: b :: l, h => by
    obtain ⟨ha, hl⟩ := pairwise_cons.mp h
    rw [dedupAdjacent]
    split
    · exact pairwise_dedupAdjacent hl
    rename_i hne
    refine pairwise_cons.mpr ⟨fun x hx => ?_, pairwise_dedupAdjacent hl⟩
    have hab : a < b := lt_of_le_of_ne (ha b mem_cons_self) hne
    rcases mem_cons.mp (mem_dedupAdjacent.mp hx) with rfl | hx
    · exact hab
    · exact lt_of_lt_of_le hab ((pairwise_cons.mp hl).1 x hx)

theorem dedupAdjacent_eq_self : ∀ {l : List α}, l.Pairwise (· < ·) → dedupAdjacent l = l
  | [], _ => rfl
  | [_], _ => rfl
  | a :: b :: l, h => by
    obtain ⟨ha, hl⟩ := pairwise_cons.mp h
    rw [dedupAdjacent, if_neg (ha b mem_cons_self).ne, dedupAdjacent_eq_self hl]

/-- Sort and drop repeats. -/
def sortDedup (l : List α) : List α := dedupAdjacent (l.insertionSort (· ≤ ·))

@[simp] theorem mem_sortDedup {x : α} {l : List α} : x ∈ sortDedup l ↔ x ∈ l := by
  rw [sortDedup, mem_dedupAdjacent, mem_insertionSort]

theorem pairwise_sortDedup (l : List α) : (sortDedup l).Pairwise (· < ·) :=
  pairwise_dedupAdjacent (pairwise_insertionSort _ l)

theorem sortDedup_eq_self {l : List α} (h : l.Pairwise (· < ·)) : sortDedup l = l := by
  rw [sortDedup, (h.imp le_of_lt).insertionSort_eq, dedupAdjacent_eq_self h]

/-- A strictly sorted list is determined by its members. -/
theorem eq_of_mem_iff {l m : List α} (hl : l.Pairwise (· < ·)) (hm : m.Pairwise (· < ·))
    (h : ∀ x, x ∈ l ↔ x ∈ m) : l = m := hl.eq_of_mem_iff hm h

/-! ## Maps -/

/-- Fold entries sorted by key into one per key, the last value winning; `k`, `v` is the entry
under construction. -/
def lastWinsFrom (k : κ) (v : β) : List (κ × β) → List (κ × β)
  | [] => [(k, v)]
  | (l, w) :: es => if k = l then lastWinsFrom k w es else (k, v) :: lastWinsFrom l w es

/-- One entry per key, the last value winning, for entries sorted by key. -/
def lastWins : List (κ × β) → List (κ × β)
  | [] => []
  | (k, v) :: es => lastWinsFrom k v es

/-- Sort entries by key, stably. -/
def sortByKey (es : List (κ × β)) : List (κ × β) := es.insertionSort fun e f => e.1 ≤ f.1

theorem mem_of_mem_lastWinsFrom {e : κ × β} : ∀ {k : κ} {v : β} {es : List (κ × β)},
    e ∈ lastWinsFrom k v es → e = (k, v) ∨ e ∈ es
  | k, v, [], h => .inl (mem_singleton.mp h)
  | k, v, (l, w) :: es, h => by
    rw [lastWinsFrom] at h
    split at h
    · next hkl =>
      subst hkl
      rcases mem_of_mem_lastWinsFrom h with he | he
      · exact .inr (he ▸ mem_cons_self)
      · exact .inr (mem_cons_of_mem _ he)
    rcases mem_cons.mp h with he | he
    · exact .inl he
    · rcases mem_of_mem_lastWinsFrom he with he | he
      · exact .inr (he ▸ mem_cons_self)
      · exact .inr (mem_cons_of_mem _ he)

theorem pairwise_lastWinsFrom : ∀ {k : κ} {v : β} {es : List (κ × β)},
    ((k, v) :: es).Pairwise (fun e f => e.1 ≤ f.1) →
      (lastWinsFrom k v es).Pairwise fun e f => e.1 < f.1
  | _, _, [], _ => pairwise_singleton _ _
  | k, v, (l, w) :: es, h => by
    obtain ⟨hk, hl⟩ := pairwise_cons.mp h
    obtain ⟨hl', hes⟩ := pairwise_cons.mp hl
    rw [lastWinsFrom]
    split
    · next hkl =>
      subst hkl
      exact pairwise_lastWinsFrom hl
    rename_i hne
    refine pairwise_cons.mpr ⟨fun e he => ?_, pairwise_lastWinsFrom hl⟩
    have hlt : k < l := lt_of_le_of_ne (hk _ mem_cons_self) hne
    rcases mem_of_mem_lastWinsFrom he with rfl | he
    · exact hlt
    · exact lt_of_lt_of_le hlt (hl' e he)

theorem lastWinsFrom_eq_self : ∀ {k : κ} {v : β} {es : List (κ × β)},
    ((k, v) :: es).Pairwise (fun e f => e.1 < f.1) → lastWinsFrom k v es = (k, v) :: es
  | _, _, [], _ => rfl
  | k, v, (l, w) :: es, h => by
    obtain ⟨hk, hl⟩ := pairwise_cons.mp h
    rw [lastWinsFrom, if_neg (hk (l, w) mem_cons_self).ne, lastWinsFrom_eq_self hl]

/-- Sort entries by key and keep the last value of each. -/
def canonicalEntries (es : List (κ × β)) : List (κ × β) := lastWins (sortByKey es)

theorem pairwise_sortByKey (es : List (κ × β)) :
    (sortByKey es).Pairwise fun e f => e.1 ≤ f.1 := by
  have htotal : Std.Total fun e f : κ × β => e.1 ≤ f.1 := ⟨fun e f => le_total e.1 f.1⟩
  have htrans : IsTrans (κ × β) fun e f => e.1 ≤ f.1 := ⟨fun _ _ _ => le_trans⟩
  exact pairwise_insertionSort _ es

theorem pairwise_canonicalEntries (es : List (κ × β)) :
    (canonicalEntries es).Pairwise fun e f => e.1 < f.1 := by
  have hsorted := pairwise_sortByKey es
  unfold canonicalEntries
  revert hsorted
  cases sortByKey es with
  | nil => exact fun _ => List.Pairwise.nil
  | cons f fs => exact fun hsorted => pairwise_lastWinsFrom hsorted

theorem canonicalEntries_eq_self {es : List (κ × β)} (h : es.Pairwise fun e f => e.1 < f.1) :
    canonicalEntries es = es := by
  rw [canonicalEntries, sortByKey, (h.imp le_of_lt).insertionSort_eq]
  cases es with
  | nil => rfl
  | cons e es => exact lastWinsFrom_eq_self h

/-! ## Merging -/

/-- Put `l` into its place in a list and go on with `rest` behind it; `left` is what follows `l` when
the other list ends. -/
def mergeFrom (l : α) (left : List α) (rest : List α → List α) : List α → List α
  | [] => l :: left
  | r :: right =>
    if l < r then l :: rest (r :: right)
    else if r < l then r :: mergeFrom l left rest right
    else l :: rest right

/-- Merge two lists, taking the smaller head and equal heads together. -/
def mergeUnion : List α → List α → List α
  | [], right => right
  | l :: left, right => mergeFrom l left (mergeUnion left) right

/-- Drop from a list what the other lists, moving through both only forwards. -/
def mergeDiff : List α → List α → List α
  | [], _ => []
  | row :: left, right =>
    match right.dropWhile fun r => decide (r < row) with
    | [] => row :: mergeDiff left []
    | r :: right => if r ≠ row then row :: mergeDiff left (r :: right) else mergeDiff left (r :: right)

/-- Merging loses nothing, sorted or not. -/
@[simp] theorem mem_mergeUnion {x : α} : ∀ {left right : List α},
    x ∈ mergeUnion left right ↔ x ∈ left ∨ x ∈ right
  | [], right => by simp [mergeUnion]
  | l :: left, right => by
    have hfrom : ∀ right, x ∈ mergeFrom l left (mergeUnion left) right ↔
        x ∈ l :: left ∨ x ∈ right := by
      intro right
      induction right with
      | nil => simp [mergeFrom]
      | cons r right ih =>
        rw [mergeFrom]
        split
        · simp only [mem_cons, mem_mergeUnion, or_assoc]
        split
        · simp only [mem_cons, ih]
          tauto
        · next hlr hrl =>
          obtain rfl : l = r := le_antisymm (not_lt.mp hrl) (not_lt.mp hlr)
          simp only [mem_cons, mem_mergeUnion]
          tauto
    exact hfrom right

theorem pairwise_mergeUnion : ∀ {left right : List α}, left.Pairwise (· < ·) →
    right.Pairwise (· < ·) → (mergeUnion left right).Pairwise (· < ·)
  | [], _, _, h => h
  | l :: left, right, hleft, hright => by
    obtain ⟨hl, hleft'⟩ := pairwise_cons.mp hleft
    show (mergeFrom l left (mergeUnion left) right).Pairwise (· < ·)
    induction right with
    | nil => exact hleft
    | cons r right ih =>
      obtain ⟨hr, hright'⟩ := pairwise_cons.mp hright
      rw [mergeFrom]
      split
      · next hlr =>
        refine pairwise_cons.mpr ⟨fun x hx => ?_, pairwise_mergeUnion hleft' hright⟩
        rcases mem_mergeUnion.mp hx with hx | hx
        · exact hl x hx
        · rcases mem_cons.mp hx with rfl | hx
          · exact hlr
          · exact hlr.trans (hr x hx)
      split
      · next hrl =>
        refine pairwise_cons.mpr ⟨fun x hx => ?_, ih hright'⟩
        have hmem : x ∈ mergeUnion (l :: left) right := hx
        rcases mem_mergeUnion.mp hmem with hx | hx
        · rcases mem_cons.mp hx with rfl | hx
          · exact hrl
          · exact hrl.trans (hl x hx)
        · exact hr x hx
      rename_i hlr hrl
      obtain rfl : l = r := le_antisymm (not_lt.mp hrl) (not_lt.mp hlr)
      refine pairwise_cons.mpr ⟨fun x hx => ?_, pairwise_mergeUnion hleft' hright'⟩
      rcases mem_mergeUnion.mp hx with hx | hx
      · exact hl x hx
      · exact hr x hx

theorem mergeDiff_sublist : ∀ left right : List α, (mergeDiff left right).Sublist left
  | [], _ => List.Sublist.refl _
  | row :: left, right => by
    rw [mergeDiff]
    split
    · exact (mergeDiff_sublist left _).cons_cons row
    · split
      · exact (mergeDiff_sublist left _).cons_cons row
      · exact (mergeDiff_sublist left _).cons row

theorem pairwise_mergeDiff {left right : List α} (h : left.Pairwise (· < ·)) :
    (mergeDiff left right).Pairwise (· < ·) := h.sublist (mergeDiff_sublist left right)

/-- What a sorted list skips below a bound is not above it. -/
theorem mem_dropWhile_lt {x row : α} {right : List α} (h : right.Pairwise (· < ·)) :
    x ∈ right.dropWhile (fun r => decide (r < row)) ↔ x ∈ right ∧ row ≤ x := by
  induction right with
  | nil => simp
  | cons r right ih =>
    obtain ⟨hr, hright⟩ := pairwise_cons.mp h
    rw [dropWhile_cons]
    by_cases hlt : r < row
    · rw [if_pos (decide_eq_true hlt), ih hright, mem_cons]
      constructor
      · exact fun hx => ⟨.inr hx.1, hx.2⟩
      · rintro ⟨rfl | hx, hle⟩
        · exact absurd hlt hle.not_gt
        · exact ⟨hx, hle⟩
    rw [if_neg (by simpa using hlt)]
    refine ⟨fun hx => ⟨hx, ?_⟩, And.left⟩
    rcases mem_cons.mp hx with rfl | hx
    · exact not_lt.mp hlt
    · exact (not_lt.mp hlt).trans (hr x hx).le

theorem mem_mergeDiff {x : α} : ∀ {left right : List α}, left.Pairwise (· < ·) →
    right.Pairwise (· < ·) → (x ∈ mergeDiff left right ↔ x ∈ left ∧ x ∉ right)
  | [], _, _, _ => by simp [mergeDiff]
  | row :: left, right, hleft, hright => by
    obtain ⟨hrow, hleft'⟩ := pairwise_cons.mp hleft
    have hmem : ∀ y, y ∈ right.dropWhile (fun r => decide (r < row)) ↔ y ∈ right ∧ row ≤ y :=
      fun y => mem_dropWhile_lt hright
    have hsorted : (right.dropWhile fun r => decide (r < row)).Pairwise (· < ·) :=
      hright.sublist (dropWhile_sublist _)
    rw [mergeDiff]
    generalize right.dropWhile (fun r => decide (r < row)) = skipped at hmem hsorted ⊢
    -- every later row is above `row`, so the skipped part is never asked for again
    have htail : x ∈ mergeDiff left skipped ↔ x ∈ left ∧ x ∉ right :=
      (mem_mergeDiff hleft' hsorted).trans (and_congr_right fun hx =>
        not_congr ((hmem x).trans (and_iff_left (hrow x hx).le)))
    have hkeep : row ∉ right →
        (x ∈ row :: mergeDiff left skipped ↔ x ∈ row :: left ∧ x ∉ right) := by
      intro hnot
      rw [mem_cons, htail, mem_cons, or_and_right]
      exact or_congr_left ⟨fun h => ⟨h, h ▸ hnot⟩, And.left⟩
    cases skipped with
    | nil => exact hkeep fun h => absurd ((hmem row).mpr ⟨h, le_rfl⟩) not_mem_nil
    | cons r skipped =>
      have hle : row ≤ r := ((hmem r).mp mem_cons_self).2
      dsimp only
      split
      · next hne =>
        refine hkeep fun h => ?_
        rcases mem_cons.mp ((hmem row).mpr ⟨h, le_rfl⟩) with heq | hlt
        · exact hne heq.symm
        · exact absurd ((pairwise_cons.mp hsorted).1 row hlt) hle.not_gt
      rename_i heq
      obtain rfl : r = row := not_not.mp heq
      have hr : r ∈ right := ((hmem r).mp mem_cons_self).1
      rw [htail, mem_cons, or_and_right]
      exact ⟨.inr, fun h => h.resolve_left fun h => h.2 (h.1 ▸ hr)⟩

/-! ## Sorted sets -/

/-- **A set kept as a strictly sorted list.** -/
@[ext] structure SortedSet (α : Type) [LinearOrder α] where
  list : List α
  sorted : list.Pairwise (· < ·)

namespace SortedSet

instance : Membership α (SortedSet α) := ⟨fun s a => a ∈ s.list⟩

variable {s : SortedSet α}

theorem mem_list {a : α} : a ∈ s.list ↔ a ∈ s := Iff.rfl

instance (a : α) (s : SortedSet α) : Decidable (a ∈ s) := inferInstanceAs (Decidable (a ∈ s.list))

/-- A sorted set is determined by its members. -/
theorem ext_mem {t : SortedSet α} (h : ∀ a, a ∈ s ↔ a ∈ t) : s = t :=
  SortedSet.ext (eq_of_mem_iff s.sorted t.sorted h)

def empty : SortedSet α := ⟨[], List.Pairwise.nil⟩

theorem notMem_empty (a : α) : a ∉ (empty : SortedSet α) := not_mem_nil

theorem pairwise_orderedInsert {a : α} {l : List α} (h : l.Pairwise (· < ·)) (ha : a ∉ l) :
    (l.orderedInsert (· ≤ ·) a).Pairwise (· < ·) := by
  have hle := List.Pairwise.orderedInsert a l (h.imp le_of_lt)
  have hnodup : (l.orderedInsert (· ≤ ·) a).Nodup :=
    (perm_orderedInsert _ a l).nodup_iff.mpr (nodup_cons.mpr ⟨ha, h.imp ne_of_lt⟩)
  exact (hle.and hnodup).imp fun h => lt_of_le_of_ne h.1 h.2

def insert (a : α) (s : SortedSet α) : SortedSet α :=
  if h : a ∈ s.list then s
  else ⟨s.list.orderedInsert (· ≤ ·) a, pairwise_orderedInsert s.sorted h⟩

@[simp] theorem mem_insert {a b : α} : b ∈ s.insert a ↔ b = a ∨ b ∈ s := by
  unfold insert
  split
  · next h => exact ⟨.inr, fun hb => hb.elim (fun hb => hb ▸ h) id⟩
  · exact mem_orderedInsert _

def erase (a : α) (s : SortedSet α) : SortedSet α :=
  ⟨s.list.erase a, s.sorted.sublist erase_sublist⟩

@[simp] theorem mem_erase {a b : α} : b ∈ s.erase a ↔ b ≠ a ∧ b ∈ s :=
  List.Nodup.mem_erase_iff (s.sorted.imp ne_of_lt)

/-- The members that pass a test. -/
def filter (p : α → Bool) (s : SortedSet α) : SortedSet α := ⟨s.list.filter p, s.sorted.filter p⟩

@[simp] theorem mem_filter {p : α → Bool} {a : α} :
    a ∈ s.filter p ↔ a ∈ s ∧ p a = true := List.mem_filter

def ofList (l : List α) : SortedSet α := ⟨sortDedup l, pairwise_sortDedup l⟩

@[simp] theorem mem_ofList {a : α} {l : List α} : a ∈ ofList l ↔ a ∈ l := mem_sortDedup

end SortedSet

/-! ## Sorted maps -/

/-- Put an entry in its place, over one of the same key. -/
def insertEntry (k : κ) (v : β) : List (κ × β) → List (κ × β)
  | [] => [(k, v)]
  | (l, w) :: es =>
    if k < l then (k, v) :: (l, w) :: es
    else if l < k then (l, w) :: insertEntry k v es
    else (l, v) :: es

theorem mem_insertEntry {k : κ} {v : β} {e : κ × β} : ∀ {es : List (κ × β)},
    (es.Pairwise fun e f => e.1 < f.1) →
      (e ∈ insertEntry k v es ↔ e = (k, v) ∨ e.1 ≠ k ∧ e ∈ es)
  | [], _ => by simp [insertEntry]
  | (l, w) :: es, h => by
    obtain ⟨hl, hes⟩ := pairwise_cons.mp h
    rw [insertEntry]
    split
    · next hlt =>
      have hne : ∀ x ∈ (l, w) :: es, x.1 ≠ k := by
        refine forall_mem_cons.mpr ⟨hlt.ne', fun x hx => (hlt.trans (hl x hx)).ne'⟩
      rw [mem_cons]
      exact or_congr_right ⟨fun hx => ⟨hne e hx, hx⟩, And.right⟩
    rename_i hnlt
    split
    · next hlt =>
      rw [mem_cons, mem_insertEntry hes, mem_cons]
      constructor
      · rintro (rfl | rfl | ⟨hne, hx⟩)
        · exact .inr ⟨hlt.ne, .inl rfl⟩
        · exact .inl rfl
        · exact .inr ⟨hne, .inr hx⟩
      · rintro (rfl | ⟨hne, rfl | hx⟩)
        · exact .inr (.inl rfl)
        · exact .inl rfl
        · exact .inr (.inr ⟨hne, hx⟩)
    · next hnlt' =>
      obtain rfl : k = l := le_antisymm (not_lt.mp hnlt') (not_lt.mp hnlt)
      rw [mem_cons, mem_cons]
      constructor
      · rintro (rfl | hx)
        · exact .inl rfl
        · exact .inr ⟨(hl e hx).ne', .inr hx⟩
      · rintro (rfl | ⟨hne, rfl | hx⟩)
        · exact .inl rfl
        · exact absurd rfl hne
        · exact .inr hx

theorem pairwise_insertEntry {k : κ} {v : β} : ∀ {es : List (κ × β)},
    (es.Pairwise fun e f => e.1 < f.1) → (insertEntry k v es).Pairwise fun e f => e.1 < f.1
  | [], _ => pairwise_singleton _ _
  | (l, w) :: es, h => by
    obtain ⟨hl, hes⟩ := pairwise_cons.mp h
    rw [insertEntry]
    split
    · next hlt =>
      exact pairwise_cons.mpr
        ⟨forall_mem_cons.mpr ⟨hlt, fun x hx => hlt.trans (hl x hx)⟩, h⟩
    split
    · next hlt =>
      refine pairwise_cons.mpr ⟨fun x hx => ?_, pairwise_insertEntry hes⟩
      rcases (mem_insertEntry hes).mp hx with rfl | hx
      · exact hlt
      · exact hl x hx.2
    · exact pairwise_cons.mpr ⟨hl, hes⟩

/-- A list of entries sorted by key is determined by its members. -/
theorem entries_eq_of_mem_iff {es fs : List (κ × β)} (hes : es.Pairwise fun e f => e.1 < f.1)
    (hfs : fs.Pairwise fun e f => e.1 < f.1) (h : ∀ e, e ∈ es ↔ e ∈ fs) : es = fs := by
  have hnodup : ∀ {es : List (κ × β)}, (es.Pairwise fun e f => e.1 < f.1) → es.Nodup :=
    fun h => h.imp fun hlt heq => hlt.ne (congrArg Prod.fst heq)
  exact ((perm_ext_iff_of_nodup (hnodup hes) (hnodup hfs)).mpr h).eq_of_pairwise
    (fun e f _ _ hef hfe => absurd hfe hef.not_gt) hes hfs

/-- Insertion, seen through a test of the key. -/
theorem filter_insertEntry (p : κ → Bool) {k : κ} {v : β} {es : List (κ × β)}
    (h : es.Pairwise fun e f => e.1 < f.1) :
    (insertEntry k v es).filter (fun e => p e.1) =
      if p k then insertEntry k v (es.filter fun e => p e.1) else es.filter fun e => p e.1 := by
  split
  · next hp =>
    refine entries_eq_of_mem_iff ((pairwise_insertEntry h).filter _)
      (pairwise_insertEntry (h.filter _)) fun e => ?_
    rw [List.mem_filter, mem_insertEntry h, mem_insertEntry (h.filter _), List.mem_filter]
    constructor
    · rintro ⟨rfl | ⟨hne, he⟩, hpe⟩
      · exact .inl rfl
      · exact .inr ⟨hne, he, hpe⟩
    · rintro (rfl | ⟨hne, he, hpe⟩)
      · exact ⟨.inl rfl, hp⟩
      · exact ⟨.inr ⟨hne, he⟩, hpe⟩
  · next hp =>
    refine entries_eq_of_mem_iff ((pairwise_insertEntry h).filter _) (h.filter _) fun e => ?_
    rw [List.mem_filter, mem_insertEntry h, List.mem_filter]
    constructor
    · rintro ⟨rfl | ⟨-, he⟩, hpe⟩
      · exact absurd hpe hp
      · exact ⟨he, hpe⟩
    · rintro ⟨he, hpe⟩
      refine ⟨.inr ⟨?_, he⟩, hpe⟩
      rintro rfl
      exact hp hpe

/-- **A map kept as a list of entries sorted by key.** -/
@[ext] structure SortedMap (κ β : Type) [LinearOrder κ] where
  list : List (κ × β)
  sorted : list.Pairwise fun e f => e.1 < f.1

namespace SortedMap

variable {m : SortedMap κ β} {k : κ} {v : β}

def empty : SortedMap κ β := ⟨[], List.Pairwise.nil⟩

def get? (k : κ) (m : SortedMap κ β) : Option β := (m.list.find? fun e => e.1 = k).map Prod.snd

def insert (k : κ) (v : β) (m : SortedMap κ β) : SortedMap κ β :=
  ⟨insertEntry k v m.list, pairwise_insertEntry m.sorted⟩

/-- The keys in order. -/
def keys (m : SortedMap κ β) : List κ := m.list.map Prod.fst

theorem pairwise_keys (m : SortedMap κ β) : m.keys.Pairwise (· < ·) := pairwise_map.mpr m.sorted

theorem get?_eq_some : m.get? k = some v ↔ (k, v) ∈ m.list := by
  rw [get?, Option.map_eq_some_iff]
  constructor
  · rintro ⟨e, hfind, rfl⟩
    have hk : e.1 = k := by simpa using find?_some hfind
    exact hk ▸ mem_of_find?_eq_some hfind
  intro hmem
  have hsome : (m.list.find? fun e => decide (e.1 = k)).isSome :=
    find?_isSome.mpr ⟨_, hmem, decide_eq_true rfl⟩
  obtain ⟨e, he⟩ := Option.isSome_iff_exists.mp hsome
  have hk : e.1 = k := by simpa using find?_some he
  have hkeys : (m.list.map Prod.fst).Nodup := m.pairwise_keys.imp ne_of_lt
  exact ⟨e, he, congrArg Prod.snd
    (inj_on_of_nodup_map hkeys (mem_of_find?_eq_some he) hmem hk)⟩

theorem mem_keys : k ∈ m.keys ↔ (m.get? k).isSome = true := by
  rw [keys, mem_map, Option.isSome_iff_exists]
  constructor
  · rintro ⟨e, he, rfl⟩
    exact ⟨e.2, get?_eq_some.mpr he⟩
  · rintro ⟨v, hv⟩
    exact ⟨(k, v), get?_eq_some.mp hv, rfl⟩

@[simp] theorem get?_empty : (empty : SortedMap κ β).get? k = none := rfl

theorem get?_insert (k' : κ) : (m.insert k v).get? k' = if k' = k then some v else m.get? k' := by
  refine Option.ext fun w => ?_
  have hmem : (k', w) ∈ (m.insert k v).list ↔ (k', w) = (k, v) ∨ k' ≠ k ∧ (k', w) ∈ m.list :=
    mem_insertEntry m.sorted
  rw [get?_eq_some, hmem, Prod.mk.injEq]
  split
  · next h => simp [h, eq_comm]
  · next h => simp [h, get?_eq_some]

@[simp] theorem get?_insert_self : (m.insert k v).get? k = some v := by
  rw [get?_insert, if_pos rfl]

theorem get?_insert_of_ne {k' : κ} (h : k' ≠ k) : (m.insert k v).get? k' = m.get? k' := by
  rw [get?_insert, if_neg h]

/-- A key beyond the others comes last. -/
theorem list_insert_of_lt (h : ∀ e ∈ m.list, e.1 < k) : (m.insert k v).list = m.list ++ [(k, v)] := by
  refine entries_eq_of_mem_iff (m.insert k v).sorted ?_ fun e => ?_
  · refine pairwise_append.mpr ⟨m.sorted, pairwise_singleton _ _, fun e he f hf => ?_⟩
    rw [mem_singleton.mp hf]
    exact h e he
  · rw [mem_append, mem_singleton]
    refine (mem_insertEntry m.sorted).trans (or_comm.trans (or_congr_left ?_))
    exact and_iff_right_of_imp fun he => (h e he).ne

/-- A sorted map is determined by its lookups. -/
theorem ext_get? {m m' : SortedMap κ β} (h : ∀ k, m.get? k = m'.get? k) : m = m' := by
  refine SortedMap.ext (entries_eq_of_mem_iff m.sorted m'.sorted fun e => ?_)
  rw [← get?_eq_some (k := e.1) (v := e.2), h, get?_eq_some]

/-- The entries that pass a test. -/
def retain (p : κ → β → Bool) (m : SortedMap κ β) : SortedMap κ β :=
  ⟨m.list.filter fun e => p e.1 e.2, m.sorted.filter _⟩

theorem get?_retain {p : κ → β → Bool} : (m.retain p).get? k = (m.get? k).filter (p k) := by
  refine Option.ext fun w => ?_
  rw [get?_eq_some, Option.filter_eq_some_iff, get?_eq_some]
  exact List.mem_filter

def erase (k : κ) (m : SortedMap κ β) : SortedMap κ β := m.retain fun k' _ => k' ≠ k

theorem get?_erase (k' : κ) : (m.erase k).get? k' = if k' = k then none else m.get? k' := by
  rw [erase, get?_retain]
  split
  · next h => simp [h]
  · next h => cases m.get? k' <;> simp [h]

end SortedMap

end SortedList
