import Mica.Buffer.Delta
import Mica.Lib.SpanNormal

/-!
# Buffer/Provenance — what a delta says about a view

`Text.tokens base view` reads a view as what it kept of its base and what is new, by the chunks.

* `Delta.between_spec` — the replacements that `between` finds are the spaced spans with these tokens.
* `Delta.apply_spec` — applying a delta splices its replacements.
* `Delta.transformAfter_spec` — a delta behind a concurrent one gives the edit of both.
* `Delta.Built.new_eq` — every delta passes `Delta::new` unchanged.
-/

open SpanEdit List Bool
open Except (ok.inj)

namespace Mica

/-! ## Where a chunk stands in the base -/

def BaseSpan.holds (s : BaseSpan) (k : ℕ) : Bool := s.start ≤ k && k < s.stop

/-- Where a character of a chunk stands in a base. -/
def Text.locate (base : Text) (chunk : Chunk) (k : ℕ) : Option ℕ :=
  ((baseSpans chunk.id 0 base.pieces).find? (·.holds k)).map fun s => s.offset + k - s.start

/-- A character of a chunk, as a view of a base shows it. -/
def Text.token (base : Text) (chunk : Chunk) (k : ℕ) : Token Char :=
  match base.locate chunk k with
  | some i => .kept i
  | none => .fresh (Piece.charAt chunk k)

/-- A view as what it kept of a base and what is new. -/
def Text.tokens (base view : Text) : List (Token Char) := view.read base.token

theorem baseSpans_append (id : ℕ) (qs : List Piece) : ∀ (offset : ℕ) (ps : List Piece),
    baseSpans id offset (ps ++ qs) =
      baseSpans id offset ps ++ baseSpans id (offset + (ps.map Piece.len).sum) qs
  | _, [] => rfl
  | offset, p :: ps => by
    rw [cons_append, baseSpans, baseSpans, map_cons, sum_cons, ← Nat.add_assoc]
    split
    · rw [baseSpans_append id qs _ ps, cons_append]
    · exact baseSpans_append id qs _ ps

/-- Where a span comes from. -/
theorem exists_of_mem_baseSpans {id : ℕ} {s : BaseSpan} : ∀ {offset : ℕ} {ps : List Piece},
    s ∈ baseSpans id offset ps → ∃ p ∈ ps, p.chunk.id = id ∧ s.start = p.start ∧ s.stop = p.stop ∧
      s.offset + p.len ≤ offset + (ps.map Piece.len).sum
  | _, [], h => nomatch h
  | offset, p :: ps, h => by
    have hrest : s ∈ baseSpans id (offset + p.len) ps → ∃ p' ∈ p :: ps, p'.chunk.id = id ∧
        s.start = p'.start ∧ s.stop = p'.stop ∧
        s.offset + p'.len ≤ offset + ((p :: ps).map Piece.len).sum := by
      intro hmem
      obtain ⟨p', hp', hid, hstart, hstop, hle⟩ := exists_of_mem_baseSpans hmem
      refine ⟨p', mem_cons_of_mem p hp', hid, hstart, hstop, ?_⟩
      rw [map_cons, sum_cons]
      omega
    rw [baseSpans] at h
    split at h
    · next hid =>
      rcases mem_cons.mp h with rfl | h
      · refine ⟨p, mem_cons_self, hid, rfl, rfl, ?_⟩
        rw [map_cons, sum_cons]
        dsimp only
        omega
      · exact hrest h
    · exact hrest h

theorem start_lt_of_mem_baseSpans {id offset : ℕ} {ps : List Piece} {s : BaseSpan}
    (h : s ∈ baseSpans id offset ps) : s.start < s.stop := by
  obtain ⟨p, -, -, hstart, hstop, -⟩ := exists_of_mem_baseSpans h
  rw [hstart, hstop]
  exact p.start_lt

theorem baseSpans_eq_nil {id : ℕ} {offset : ℕ} {ps : List Piece} (h : ∀ p ∈ ps, p.chunk.id ≠ id) :
    baseSpans id offset ps = [] := by
  refine eq_nil_iff_forall_not_mem.mpr fun s hs => ?_
  obtain ⟨p, hp, hid, -⟩ := exists_of_mem_baseSpans hs
  exact h p hp hid

/-- The spans of a chunk stand in its order. -/
theorem pairwise_baseSpans (id : ℕ) : ∀ (offset : ℕ) {ps : List Piece}, ps.Pairwise Pieces.InOrder →
    (baseSpans id offset ps).Pairwise fun s s' => s.stop ≤ s'.start
  | _, [], _ => List.Pairwise.nil
  | offset, p :: ps, h => by
    obtain ⟨hp, hps⟩ := pairwise_cons.mp h
    rw [baseSpans]
    split
    · next hid =>
      refine pairwise_cons.mpr ⟨fun s hs => ?_, pairwise_baseSpans id _ hps⟩
      obtain ⟨p', hp', hid', hstart, -⟩ := exists_of_mem_baseSpans hs
      rw [hstart]
      exact (hp p' hp' (hid.trans hid'.symm)).2
    · exact pairwise_baseSpans id _ hps

namespace Text

variable {base view : Text}

/-- A span is found if none before it holds the position. -/
theorem token_of_span {chunk : Chunk} {k : ℕ} {before after : List BaseSpan} {s : BaseSpan}
    (hspans : baseSpans chunk.id 0 base.pieces = before ++ s :: after)
    (hbefore : ∀ d ∈ before, d.stop ≤ k) (hstart : s.start ≤ k) (hstop : k < s.stop) :
    base.token chunk k = .kept (s.offset + k - s.start) := by
  have hnone : before.find? (·.holds k) = none := by
    refine find?_eq_none.mpr fun d hd hholds => ?_
    unfold BaseSpan.holds at hholds
    simp only [and_eq_true, decide_eq_true_eq] at hholds
    have := hbefore d hd
    omega
  have hholds : s.holds k = true := by
    unfold BaseSpan.holds
    simp only [and_eq_true, decide_eq_true_eq]
    exact ⟨hstart, hstop⟩
  have hfind : (s :: after).find? (·.holds k) = some s := find?_cons_of_pos hholds
  unfold token locate
  rw [hspans, find?_append, hnone, Option.none_or, hfind]
  rfl

theorem token_of_not_mem {chunk : Chunk} (h : baseSpans chunk.id 0 base.pieces = []) (k : ℕ) :
    base.token chunk k = .fresh (Piece.charAt chunk k) := by
  unfold token locate
  rw [h]
  rfl

/-- A chunk that came later. -/
theorem token_of_bound_le {chunk : Chunk} (h : base.bound ≤ chunk.id) (k : ℕ) :
    base.token chunk k = .fresh (Piece.charAt chunk k) :=
  token_of_not_mem (baseSpans_eq_nil fun _ hp hid =>
    absurd (id_lt_bound hp) (by rw [hid]; exact not_lt.mpr h)) k

/-- **A base keeps all of itself.** -/
theorem tokens_self (base : Text) : base.tokens base = keptRange 0 base.len := by
  have hfrom : ∀ (ps qs : List Piece), base.pieces = qs ++ ps →
      Pieces.read base.token ps = keptRange (qs.map Piece.len).sum base.len := by
    intro ps
    induction ps with
    | nil =>
      intro qs hqs
      rw [append_nil] at hqs
      unfold len
      rw [hqs, keptRange, Nat.sub_self]
      rfl
    | cons p ps ih =>
      intro qs hqs
      have hrest := ih (qs ++ [p]) (by rw [hqs, append_assoc, singleton_append])
      rw [map_append, map_singleton, sum_append, sum_singleton] at hrest
      have hlen : base.len = (qs.map Piece.len).sum + (p.len + (ps.map Piece.len).sum) := by
        unfold len
        rw [hqs, map_append, sum_append, map_cons, sum_cons]
      rw [Pieces.read_cons, hrest,
        ← keptRange_append (Nat.le_add_right (qs.map Piece.len).sum p.len) (by omega)]
      congr 1
      -- the piece is where it stands, since no piece before it has the same range
      have hspans := baseSpans_append p.chunk.id (p :: ps) 0 qs
      rw [← hqs, baseSpans, if_pos rfl, Nat.zero_add] at hspans
      have hord := base.ordered
      rw [hqs] at hord
      unfold Piece.read keptRange
      rw [Nat.add_sub_cancel_left]
      refine ext_getElem? fun i => ?_
      rw [getElem?_map, getElem?_map]
      by_cases hi : i < p.len
      · rw [getElem?_range' hi, getElem?_range' hi, Option.map_some, Option.map_some]
        unfold Piece.len at hi
        rw [token_of_span hspans ?_ (Nat.le_add_right _ _) (by dsimp only; omega)]
        · congr 2
          dsimp only
          omega
        · intro d hd
          obtain ⟨q, hq, hid, -, hstop, -⟩ := exists_of_mem_baseSpans hd
          have hle := ((pairwise_append.mp hord).2.2 q hq p mem_cons_self hid).2
          exact hstop ▸ hle.trans (Nat.le_add_right _ _)
      · rw [getElem?_eq_none (by simpa using hi), getElem?_eq_none (by simpa using hi)]
        rfl
  exact hfrom base.pieces [] rfl

theorem length_tokens (base view : Text) : (base.tokens view).length = view.len :=
  view.length_read _

/-- **A replacement splices what is new.** -/
theorem tokens_replace (base : Text) {view' : Text} {start stop : ℕ} {text : List Char}
    {supply : Supply}
    (h : view.replace start stop text supply = .ok view') (hsupply : base.bound ≤ supply.chunk) :
    base.tokens view' = splice (base.tokens view) start stop (text.map .fresh) := by
  have hnew : Pieces.read base.token
      (newPieces (max supply.chunk view.bound) (chunksOf text.length text)) = text.map .fresh := by
    rw [read_newPieces base.bound (fun _ _ hid => token_of_bound_le hid _) _
      (hsupply.trans (le_max_left _ _)),
      flatten_chunksOf _ _ le_rfl]
  exact hnew ▸ read_replace h

theorem toText_replace {view' : Text} {start stop : ℕ} {text : List Char} {supply : Supply}
    (h : view.replace start stop text supply = .ok view') :
    view'.toText = splice view.toText start stop text := by
  have hnew : Pieces.read Piece.charAt
      (newPieces (max supply.chunk view.bound) (chunksOf text.length text)) = text := by
    have hread := read_newPieces (g := Piece.charAt) (h := id) 0 (fun _ _ _ => rfl)
      (chunksOf text.length text) (Nat.zero_le (max supply.chunk view.bound))
    rwa [flatten_chunksOf _ _ le_rfl, map_id] at hread
  rw [toText_eq_read, toText_eq_read, read_replace h, hnew]

theorem toText_fromText (text : List Char) (supply : Supply) :
    (fromText text supply).toText = text := by
  rw [toText_eq_read]
  have hread := read_newPieces (g := Piece.charAt) (h := id) 0 (fun _ _ _ => rfl)
    (chunksOf text.length text) (Nat.zero_le supply.chunk)
  rwa [flatten_chunksOf _ _ le_rfl, map_id] at hread

/-- What a token of a view shows. -/
def value (base : Text) : Token Char → Char := Token.value fun i => base.toText.getD i ' '

/-- A view whose tokens show its characters. -/
def Shows (base view : Text) : Prop := view.toText = (base.tokens view).map base.value

theorem shows_self (base : Text) : base.Shows base := by
  unfold Shows
  have hlen := base.length_toText
  rw [tokens_self, keptRange, map_map]
  refine ext_getElem? fun i => ?_
  rw [getElem?_map]
  by_cases hi : i < base.len
  · rw [getElem?_range' (by omega), Option.map_some, getElem?_eq_getElem (by omega)]
    simp [value, Token.value, hlen, hi]
  · rw [getElem?_eq_none (by omega), getElem?_eq_none (by simpa using hi)]
    rfl

theorem Shows.replace {view' : Text} {start stop : ℕ} {text : List Char} {supply : Supply}
    (h : view.replace start stop text supply = .ok view') (hsupply : base.bound ≤ supply.chunk)
    (hshows : base.Shows view) : base.Shows view' := by
  unfold Shows at hshows ⊢
  rw [toText_replace h, tokens_replace base h hsupply, map_splice, ← hshows, map_map]
  congr 1
  exact (map_id text).symm

end Text

/-! ## Between two texts -/

namespace Between

variable {base : Text} {s s' : Between} {n retained : ℕ}

/-- The tokens that have been read. -/
def rendered (s : Between) : List (Token Char) :=
  renderFrom s.cursor 0 s.out ++ s.inserted.map .fresh

/-- What holds between two pieces of the view: the next replacement may start at the cursor. -/
structure Sound (n : ℕ) (s : Between) : Prop where
  cursor_le : s.cursor ≤ n
  spaced : Spaced s.cursor 0 s.out
  behind : ∀ r ∈ s.out, r.stop < s.cursor
  solid : Solid s.out

/-- **A flush closes the tokens at a kept position.** -/
theorem flush_spec (h : s.Sound n) (hle : s.cursor ≤ retained) (hflush : s.flush retained = .ok s') :
    s'.inserted = [] ∧ Spaced retained 0 s'.out ∧ (∀ r ∈ s'.out, r.stop ≤ retained) ∧ Solid s'.out ∧
      ∀ m, retained ≤ m → renderFrom m 0 s'.out = s.rendered ++ keptRange retained m := by
  unfold flush at hflush
  split at hflush
  · next hnothing =>
    obtain rfl := ok.inj hflush
    have hcursor : s.cursor = retained := le_antisymm hle hnothing.1
    refine ⟨hnothing.2, hcursor ▸ h.spaced, fun r hr => hcursor ▸ (h.behind r hr).le, h.solid,
      fun m hm => ?_⟩
    unfold rendered
    rw [hnothing.2, map_nil, append_nil, hcursor,
      renderFrom_upto (fun r hr => hcursor ▸ (h.behind r hr).le) (Nat.zero_le _) hm]
  rename_i hsomething
  split at hflush
  · cases hflush
  obtain rfl := ok.inj hflush
  refine ⟨rfl, (h.spaced.upto hle).snoc h.behind (Nat.zero_le _) hle le_rfl, fun r hr => ?_,
    fun r hr hempty htext => ?_, fun m _ => ?_⟩
  · rcases mem_append.mp hr with hr | hr
    · exact (h.behind r hr).le.trans hle
    · rw [mem_singleton.mp hr]
  · rcases mem_append.mp hr with hr | hr
    · exact h.solid r hr hempty htext
    · rw [mem_singleton.mp hr] at hempty htext
      exact hsomething ⟨hempty.ge, htext⟩
  · rw [renderFrom_snoc]
    rfl

/-- A flush and a kept range behind it. -/
theorem Sound.keep {last : ℕ} (h : s.Sound n) (hle : s.cursor ≤ retained)
    (hflush : s.flush retained = .ok s') (hlt : retained < last) (hlast : last ≤ n) :
    ({ s' with cursor := last } : Between).Sound n ∧
      ({ s' with cursor := last } : Between).rendered = s.rendered ++ keptRange retained last := by
  obtain ⟨hinserted, hspaced, hstop, hsolid, hrender⟩ := flush_spec h hle hflush
  refine ⟨⟨hlast, hspaced.upto hlt.le, fun r hr => (hstop r hr).trans_lt hlt, hsolid⟩, ?_⟩
  unfold rendered
  dsimp only
  rw [hinserted, map_nil, append_nil, hrender last hlt.le]
  rfl

theorem Sound.start (n : ℕ) (budget : DeltaBudget) : Sound n ⟨[], 0, [], budget⟩ :=
  ⟨Nat.zero_le _, trivial, nofun, nofun⟩

theorem Sound.setBudget (h : s.Sound n) (budget : DeltaBudget) :
    ({ s with budget := budget } : Between).Sound n :=
  ⟨h.cursor_le, h.spaced, h.behind, h.solid⟩

/-- A range of a chunk that the base holds in one span. -/
theorem map_token_of_span {chunk : Chunk} {before after : List BaseSpan} {span : BaseSpan}
    {start last : ℕ} (hspans : baseSpans chunk.id 0 base.pieces = before ++ span :: after)
    (hbefore : ∀ d ∈ before, d.stop ≤ start) (hstart : span.start ≤ start) (hlast : last ≤ span.stop) :
    (List.range' start (last - start)).map (base.token chunk) =
      keptRange (span.offset + start - span.start)
        (span.offset + start - span.start + (last - start)) := by
  unfold keptRange
  rw [Nat.add_sub_cancel_left]
  refine ext_getElem? fun i => ?_
  rw [getElem?_map, getElem?_map]
  by_cases hi : i < last - start
  · rw [getElem?_range' hi, getElem?_range' hi, Option.map_some, Option.map_some,
      Text.token_of_span hspans (fun d hd => (hbefore d hd).trans (Nat.le_add_right _ _))
        (by omega) (by omega)]
    congr 2
    omega
  · rw [getElem?_eq_none (by simpa using hi), getElem?_eq_none (by simpa using hi)]
    rfl

/-- One span of the base, if the range goes on. -/
theorem retain_cons {stop start : ℕ} {span : BaseSpan} {spans : List BaseSpan} {res : ℕ × Between}
    (h : retain stop (span :: spans) start s = .ok res) : (start = stop ∧ res = (start, s)) ∨
      ∃ budget s₁, start ≠ stop ∧ span.start ≤ start ∧ s.cursor ≤ span.offset + start - span.start ∧
        flush { s with budget := budget } (span.offset + start - span.start) = .ok s₁ ∧
        retain stop spans (min stop span.stop)
          { s₁ with cursor := span.offset + start - span.start + min stop span.stop - start } =
            .ok res := by
  unfold retain at h
  split at h
  · next hend => exact .inl ⟨hend, (ok.inj h).symm⟩
  rename_i hne
  split at h
  · cases h
  rename_i budget _
  split at h
  · cases h
  rename_i hstart
  dsimp only at h
  split at h
  · cases h
  rename_i hcursor
  split at h
  · cases h
  rename_i s₁ hflush
  exact .inr ⟨budget, s₁, hne, not_lt.mp hstart, not_lt.mp hcursor, hflush, h⟩

/-- What one span keeps. -/
theorem Sound.keepSpan {chunk : Chunk} {before after : List BaseSpan} {span : BaseSpan}
    {start last : ℕ} {budget : DeltaBudget} (h : s.Sound base.len)
    (hspans : baseSpans chunk.id 0 base.pieces = before ++ span :: after)
    (hbefore : ∀ d ∈ before, d.stop ≤ start) (hstart : span.start ≤ start) (hlt : start < last)
    (hlast : last ≤ span.stop) (hcursor : s.cursor ≤ span.offset + start - span.start)
    (hflush : flush { s with budget := budget } (span.offset + start - span.start) = .ok s') :
    ({ s' with cursor := span.offset + start - span.start + last - start } : Between).Sound base.len ∧
      ({ s' with cursor := span.offset + start - span.start + last - start } : Between).rendered =
        s.rendered ++ (List.range' start (last - start)).map (base.token chunk) := by
  have hmem : span ∈ baseSpans chunk.id 0 base.pieces := by
    rw [hspans]
    exact mem_append_right before mem_cons_self
  obtain ⟨p, hp, -, hpstart, hpstop, hoffset⟩ := exists_of_mem_baseSpans hmem
  have hlen : p.len = span.stop - span.start := by
    unfold Piece.len
    rw [hpstart, hpstop]
  rw [Nat.zero_add, hlen] at hoffset
  rw [map_token_of_span hspans hbefore hstart hlast, Nat.add_sub_assoc hlt.le]
  refine (h.setBudget budget).keep hcursor hflush (by omega) ?_
  unfold Text.len
  omega

/-- **A range that the base holds is kept**, over one span after the other. -/
theorem retain_spec {chunk : Chunk} {stop start' : ℕ} : ∀ (spans before : List BaseSpan) {start : ℕ}
    {s : Between}, baseSpans chunk.id 0 base.pieces = before ++ spans → (start < stop →
    ∀ d ∈ before, d.stop ≤ start) → (∀ d ∈ spans, start < d.stop) → start ≤ stop →
    s.Sound base.len → retain stop spans start s = .ok (start', s') →
    start ≤ start' ∧ s'.Sound base.len ∧
      s'.rendered = s.rendered ++ (List.range' start (start' - start)).map (base.token chunk)
  | [], _, start, s, _, _, _, _, h, hretain => by
    obtain ⟨rfl, rfl⟩ := Prod.mk.inj (ok.inj hretain)
    refine ⟨le_rfl, h, ?_⟩
    rw [Nat.sub_self]
    exact (append_nil _).symm
  | span :: spans, before, start, s, hspans, hbefore, hafter, hle, h, hretain => by
    rcases retain_cons hretain with ⟨-, hres⟩ | ⟨budget, s₁, hne, hstart, hcursor, hflush, hrest⟩
    · obtain ⟨rfl, rfl⟩ := Prod.mk.inj hres
      refine ⟨le_rfl, h, ?_⟩
      rw [Nat.sub_self]
      exact (append_nil _).symm
    have hlt : start < min stop span.stop :=
      lt_min (Nat.lt_of_le_of_ne hle hne) (hafter span mem_cons_self)
    obtain ⟨hsound, hrender⟩ := h.keepSpan hspans (hbefore (Nat.lt_of_le_of_ne hle hne)) hstart hlt
      (min_le_right stop span.stop) hcursor hflush
    have hord := pairwise_baseSpans chunk.id 0 base.ordered
    rw [hspans] at hord
    obtain ⟨hnext, -⟩ := pairwise_cons.mp (pairwise_append.mp hord).2.1
    have hsolid : ∀ d ∈ spans, d.start < d.stop := fun d hd => start_lt_of_mem_baseSpans (hspans ▸
      mem_append_right before (mem_cons_of_mem span hd))
    obtain ⟨hle', hsound', hrender'⟩ := retain_spec spans (before ++ [span])
      (by rw [hspans, append_assoc, singleton_append])
      (fun hmore d hd => by
        rcases mem_append.mp hd with hd | hd
        · exact (hbefore (Nat.lt_of_le_of_ne hle hne) d hd).trans hlt.le
        · rw [mem_singleton.mp hd]
          omega)
      (fun d hd => (min_le_right _ _).trans_lt ((hnext d hd).trans_lt (hsolid d hd)))
      (min_le_left _ _) hsound hrest
    refine ⟨hlt.le.trans hle', hsound', ?_⟩
    have happend := range'_append_1 (s := start) (m := min stop span.stop - start)
      (n := start' - min stop span.stop)
    rw [Nat.add_sub_cancel' hlt.le,
      show min stop span.stop - start + (start' - min stop span.stop) = start' - start by omega]
      at happend
    rw [hrender', hrender, append_assoc, ← map_append, happend]

/-- **One piece of the view.** -/
theorem piece_spec {p : Piece} (h : s.Sound base.len) (hpiece : piece base s p = .ok s') :
    s'.Sound base.len ∧ s'.rendered = s.rendered ++ p.read base.token := by
  unfold piece at hpiece
  split at hpiece
  · next hnone =>
    unfold insert at hpiece
    split at hpiece
    · cases hpiece
    obtain rfl := ok.inj hpiece
    refine ⟨⟨h.cursor_le, h.spaced, h.behind, h.solid⟩, ?_⟩
    have hread : p.read base.token = p.text.map .fresh := by
      rw [p.text_eq_read]
      unfold Piece.read
      rw [map_map]
      exact map_congr_left fun k _ => Text.token_of_not_mem hnone k
    unfold rendered
    dsimp only
    rw [hread, map_append, append_assoc]
  · next span spans hspans =>
    split at hpiece
    · cases hpiece
    rename_i start s₁ hretain
    split at hpiece
    · cases hpiece
    rename_i hend
    obtain rfl := ok.inj hpiece
    obtain rfl : start = p.stop := not_not.mp hend
    have hord : (span :: spans).Pairwise fun d d' => d'.stop ≤ p.start → d.stop ≤ p.start := by
      have hord := pairwise_baseSpans p.chunk.id 0 base.ordered
      rw [hspans] at hord
      refine hord.imp_of_mem fun _ hd' hle hdone => hle.trans (le_trans ?_ hdone)
      exact (start_lt_of_mem_baseSpans (hspans ▸ hd')).le
    have hafter : ∀ d ∈ (span :: spans).dropWhile fun span => span.stop ≤ p.start,
        p.start < d.stop := fun d hd => by
      have hnot := not_of_mem_dropWhile (by simpa only [decide_eq_true_eq] using hord) d hd
      simpa using hnot
    obtain ⟨-, hsound, hrender⟩ := retain_spec _ ((span :: spans).takeWhile fun span =>
      span.stop ≤ p.start) (by rw [hspans, takeWhile_append_dropWhile])
      (fun _ d hd => by simpa using mem_takeWhile_imp hd) hafter p.start_lt.le h hretain
    exact ⟨hsound, hrender⟩

theorem pieces_spec : ∀ {ps : List Piece} {s : Between}, s.Sound base.len →
    pieces base ps s = .ok s' → s'.Sound base.len ∧
      s'.rendered = s.rendered ++ Pieces.read base.token ps
  | [], s, h, hpieces => by
    obtain rfl := ok.inj hpieces
    exact ⟨h, (append_nil _).symm⟩
  | p :: ps, s, h, hpieces => by
    unfold pieces at hpieces
    split at hpieces
    · cases hpieces
    rename_i s₁ hpiece
    obtain ⟨hsound, hrender⟩ := piece_spec h hpiece
    obtain ⟨hsound', hrender'⟩ := pieces_spec hsound hpieces
    refine ⟨hsound', ?_⟩
    rw [hrender', hrender, Pieces.read_cons, append_assoc]

end Between

namespace Delta

variable {base view view' : Text} {d d' other : Delta} {budget budget' : DeltaBudget} {supply : Supply}

/-- The delta of a view: spaced, without empty insertions, with the tokens of the view. -/
structure Of (base view : Text) (d : Delta) : Prop where
  spaced : Spaced base.len 0 d.replacements
  solid : Solid d.replacements
  render : renderFrom base.len 0 d.replacements = base.tokens view

theorem Of.unique (h : Of base view d) (h' : Of base view d') : d = d' := by
  have heq := renderFrom_injective h.spaced h'.spaced h.solid h'.solid (h.render.trans h'.render.symm)
  cases d
  cases d'
  exact congrArg Delta.mk heq

/-- Between two empty texts there is nothing to change. -/
theorem Of.eq_empty {base view : Text} {d : Delta} (h : Of base view d)
    (hbase : base.toText = []) (hview : view.toText = []) : d = empty := by
  refine h.unique ⟨trivial, nofun, ?_⟩
  have hlen : base.len = 0 := by rw [← base.length_toText, hbase, length_nil]
  have hlen' : (base.tokens view).length = 0 := by
    rw [Text.length_tokens, ← view.length_toText, hview, length_nil]
  rw [length_eq_zero_iff.mp hlen', hlen]
  rfl

/-- **`between` finds the delta of a view.** -/
theorem between_spec (h : between base view budget = .ok (d, budget')) : Of base view d := by
  unfold between at h
  split at h
  · next hshares =>
    obtain ⟨rfl, -⟩ := Prod.mk.inj (ok.inj h)
    refine ⟨trivial, nofun, ?_⟩
    have hread : base.tokens view = base.tokens base := by
      unfold Text.tokens Text.read
      rw [Text.pieces_eq_of_sharesRoot hshares]
    rw [hread, Text.tokens_self]
    rfl
  split at h
  · cases h
  split at h
  · cases h
  split at h
  · cases h
  rename_i s hpieces
  split at h
  · cases h
  rename_i s' hflush
  obtain ⟨rfl, -⟩ := Prod.mk.inj (ok.inj h)
  obtain ⟨hsound, hrender⟩ := Between.pieces_spec (Between.Sound.start _ _) hpieces
  obtain ⟨-, hspaced, -, hsolid, hclosed⟩ :=
    Between.flush_spec hsound hsound.cursor_le hflush
  refine ⟨hspaced, hsolid, ?_⟩
  rw [hclosed base.len le_rfl, hrender, keptRange, Nat.sub_self]
  exact append_nil _

theorem complete_spec (h : complete base view = .ok d) : Of base view d := by
  unfold complete at h
  split at h
  · cases h
  rename_i hbetween
  obtain rfl := ok.inj h
  exact between_spec hbetween

/-! ## Applying a delta -/

/-- **Applying splices**, in the tokens of any base. -/
theorem applyAll_spec (base : Text) (hsupply : base.bound ≤ supply.chunk) :
    ∀ {rs : List Replacement} {view' : Text}, applyAll supply view rs = .ok view' →
      base.tokens view' = spliceAll (rs.map (Span.map .fresh)) (base.tokens view) ∧
        view'.toText = spliceAll rs view.toText ∧ (base.Shows view → base.Shows view')
  | [], _, h => by
    obtain rfl := ok.inj h
    exact ⟨rfl, rfl, id⟩
  | r :: rs, _, h => by
    unfold applyAll at h
    split at h
    · cases h
    rename_i view₁ hrest
    split at h
    · cases h
    rename_i hreplace
    obtain rfl := ok.inj h
    obtain ⟨htokens, htext, hshows⟩ := applyAll_spec base hsupply hrest
    refine ⟨?_, ?_, fun hview => (hshows hview).replace hreplace hsupply⟩
    · rw [Text.tokens_replace base hreplace hsupply, htokens]
      rfl
    · rw [Text.toText_replace hreplace, htext]
      rfl

/-- The addresses do not matter. -/
theorem applyAll_supply (supply' : Supply) : ∀ {rs : List Replacement} {view' : Text},
    applyAll supply view rs = .ok view' →
      ∃ view'', applyAll supply' view rs = .ok view'' ∧ view''.toText = view'.toText
  | [], view', h => ⟨view, rfl, by rw [ok.inj h]⟩
  | r :: rs, view', h => by
    unfold applyAll at h ⊢
    split at h
    · cases h
    rename_i view₁ hrest
    obtain ⟨view₂, hview₂, htext⟩ := applyAll_supply supply' hrest
    split at h
    · cases h
    rename_i hreplace
    obtain rfl := ok.inj h
    have hlen : view₂.len = view₁.len := by rw [← view₂.length_toText, htext, view₁.length_toText]
    obtain ⟨hle, hstop⟩ := Text.range_of_replace hreplace
    obtain ⟨view₃, hview₃⟩ := Text.exists_replace r.text supply' hle (hlen ▸ hstop)
    rw [hview₂]
    dsimp only
    rw [hview₃]
    refine ⟨view₃, rfl, ?_⟩
    rw [Text.toText_replace hview₃, Text.toText_replace hreplace, htext]

/-- Spaced replacements can be applied. -/
theorem exists_applyAll (supply : Supply) : ∀ {low : ℕ} {rs : List Replacement}, low ≤ base.len →
    Spaced base.len low rs → ∃ view, applyAll supply base rs = .ok view ∧ low ≤ view.len
  | low, [], hlow, _ => ⟨base, rfl, hlow⟩
  | low, r :: rs, hlow, h => by
    obtain ⟨hstart, hle, hstop, hrest⟩ := h
    obtain ⟨view, hview, hlen⟩ := exists_applyAll supply hstop (hrest.mono (Nat.le_succ _))
    unfold applyAll
    rw [hview]
    dsimp only
    obtain ⟨view', hview'⟩ := Text.exists_replace r.text supply hle hlen
    rw [hview']
    refine ⟨view', rfl, ?_⟩
    have htokens := Text.tokens_replace Text.empty hview' (Nat.zero_le _)
    rw [← Text.length_tokens Text.empty view', htokens]
    unfold splice
    rw [append_assoc, length_append, length_take, Text.length_tokens]
    omega

/-- **The delta of a view makes it.** -/
theorem Of.apply (h : Of base view d) (hshows : base.Shows view) (supply : Supply) :
    ∃ text, d.apply base supply = .ok text ∧ text.toText = view.toText := by
  obtain ⟨text, htext, -⟩ := exists_applyAll supply (Nat.zero_le _) h.spaced
  refine ⟨text, htext, ?_⟩
  have hall := spliceAll_eq_renderFrom h.spaced (Nat.zero_le _)
  rw [show keptRange (α := Char) 0 0 = [] from rfl, nil_append, h.render, ← Text.tokens_self] at hall
  have hvalues := congrArg (List.map base.value) hall
  rw [map_spliceAll, ← base.shows_self, ← hshows, map_map] at hvalues
  rw [(applyAll_spec Text.empty (Nat.zero_le _) htext).2.1, ← hvalues]
  congr 1
  refine (map_id _).symm.trans (map_congr_left fun r _ => ?_)
  obtain ⟨start, stop, text⟩ := r
  dsimp only [Function.comp_apply, Span.map, id]
  rw [map_map]
  congr 1
  exact (map_id text).symm

/-! ## A delta behind another -/

/-- **Merging replacements that touch does not change what they do.** -/
theorem newFrom_spec {β : Type} (f : Char → β) (l : List β) {out : List Replacement} :
    ∀ {rs normalized : List Replacement}, newFrom normalized rs = .ok out →
      (∀ r ∈ normalized, r.start ≤ r.stop) → (∀ r ∈ normalized ++ rs, r.stop ≤ l.length) →
      (∀ last ∈ normalized.getLast?, last.stop ≤ (spliceAll (rs.map (Span.map f)) l).length) ∧
        spliceAll (out.map (Span.map f)) l =
          spliceAll (normalized.map (Span.map f)) (spliceAll (rs.map (Span.map f)) l)
  | [], normalized, h, _, hstop => by
    obtain rfl := ok.inj h
    exact ⟨fun last hlast => hstop last (mem_append_left _ (mem_of_getLast? hlast)), rfl⟩
  | r :: rs, normalized, h, hle, hstop => by
    have hrstop : r.stop ≤ l.length := hstop r (mem_append_right _ mem_cons_self)
    have hrest : ∀ x ∈ rs, x.stop ≤ l.length := fun x hx =>
      hstop x (mem_append_right _ (mem_cons_of_mem r hx))
    have hnormalized : ∀ x ∈ normalized, x.stop ≤ l.length := fun x hx =>
      hstop x (mem_append_left _ hx)
    rw [map_cons, spliceAll_cons]
    unfold newFrom at h
    split at h
    · cases h
    rename_i hrange
    rw [not_lt] at hrange
    split at h
    · next hempty =>
      -- an insertion of nothing
      have hnothing : splice (spliceAll (rs.map (Span.map f)) l) (Span.map f r).start
          (Span.map f r).stop (Span.map f r).text = spliceAll (rs.map (Span.map f)) l := by
        unfold splice Span.map
        rw [hempty.1, hempty.2, map_nil, append_nil, take_append_drop]
      rw [hnothing]
      exact newFrom_spec f l h hle (forall_mem_append.mpr ⟨hnormalized, hrest⟩)
    have hpush : newFrom (normalized ++ [r]) rs = .ok out →
        r.stop ≤ (spliceAll (rs.map (Span.map f)) l).length ∧
          spliceAll (out.map (Span.map f)) l = spliceAll (normalized.map (Span.map f))
            (splice (spliceAll (rs.map (Span.map f)) l) r.start r.stop (r.text.map f)) := by
      intro hnew
      have hbound : ∀ x ∈ normalized ++ [r] ++ rs, x.stop ≤ l.length := by
        rwa [append_assoc]
      obtain ⟨hlast, heq⟩ := newFrom_spec f l hnew
        (forall_mem_append.mpr ⟨hle, by simpa using hrange⟩) hbound
      refine ⟨hlast r (by simp), ?_⟩
      rw [heq, map_append, spliceAll_append]
      rfl
    split at h
    · next hnone =>
      obtain ⟨-, heq⟩ := hpush h
      refine ⟨fun last hlast => ?_, heq⟩
      rw [hnone] at hlast
      cases hlast
    rename_i previous hprevious
    have hmem := mem_of_getLast? hprevious
    have hsome : ∀ last ∈ normalized.getLast?, last = previous := fun last hlast =>
      (Option.some.inj (hprevious.symm.trans hlast)).symm
    split at h
    · cases h
    split at h
    · next htouch =>
      have hinit : ∀ x ∈ normalized.dropLast, x ∈ normalized := fun x hx =>
        (dropLast_sublist normalized).subset hx
      obtain ⟨hlast, heq⟩ := newFrom_spec f l h
        (forall_mem_append.mpr ⟨fun x hx => hle x (hinit x hx), by
          have := hle previous hmem
          simp only [mem_singleton, forall_eq]
          omega⟩)
        (forall_mem_append.mpr ⟨forall_mem_append.mpr
          ⟨fun x hx => hnormalized x (hinit x hx), by simpa using hrstop⟩, hrest⟩)
      have hin : r.stop ≤ (spliceAll (rs.map (Span.map f)) l).length := hlast
        ⟨previous.start, r.stop, previous.text ++ r.text⟩ (by simp)
      refine ⟨fun last hl => ?_, ?_⟩
      · rw [hsome last hl, htouch]
        exact le_length_splice (hrange.trans hin) _ _
      rw [heq, ← dropLast_append_getLast? previous hprevious, map_append,
        map_append, spliceAll_append, spliceAll_append, dropLast_concat]
      congr 1
      have hmerge := splice_splice (hle previous hmem)
        (htouch ▸ hrange.trans hin : previous.stop ≤ _) (c := r.stop)
        (previous.text.map f) (r.text.map f)
      rw [htouch] at hmerge
      rw [map_singleton, map_singleton, spliceAll_cons, spliceAll_cons]
      dsimp only [Span.map]
      rw [map_append, htouch]
      exact hmerge.symm
    · next hgap =>
      obtain ⟨hin, heq⟩ := hpush h
      refine ⟨fun last hl => ?_, heq⟩
      rw [hsome last hl]
      have hlen := le_length_splice (hrange.trans hin) r.stop (r.text.map f)
      exact le_trans (by omega) hlen

/-- Replacements that do not conflict. -/
theorem clear_of_not_conflict {left right : Replacement} (hleft : left.start ≤ left.stop)
    (hright : right.start ≤ right.stop) (h : replacementsConflict left right = false) :
    Clear left right := by
  unfold replacementsConflict at h
  unfold Clear
  split at h
  · next hl hr =>
    simp only [decide_eq_true_eq, decide_eq_false_iff_not] at hl hr h
    refine ⟨?_, ?_, ?_, ?_⟩ <;> omega
  · next hl hr =>
    simp only [decide_eq_true_eq, decide_eq_false_iff_not, and_eq_false_iff] at hl hr h
    refine ⟨?_, ?_, ?_, ?_⟩ <;> omega
  · next hl hr =>
    simp only [decide_eq_true_eq, decide_eq_false_iff_not, and_eq_false_iff] at hl hr h
    refine ⟨?_, ?_, ?_, ?_⟩ <;> omega
  · next hl hr =>
    simp only [decide_eq_false_iff_not, and_eq_false_iff] at hl hr h
    refine ⟨?_, ?_, ?_, ?_⟩ <;> omega

theorem clear_of_stop_lt {left right : Replacement} (hleft : left.start ≤ left.stop)
    (hright : right.start ≤ right.stop) (h : right.stop < left.start ∨ left.stop < right.start) :
    Clear left right := by
  refine ⟨?_, ?_, ?_, ?_⟩ <;> omega

theorem pairwise_of_spaced {n : ℕ} : ∀ {low : ℕ} {rs : List Replacement}, Spaced n low rs →
    rs.Pairwise fun r s => r.stop < s.start
  | _, [], _ => List.Pairwise.nil
  | _, _ :: _, h => pairwise_cons.mpr ⟨h.2.2.2.le_start, pairwise_of_spaced h.2.2.2⟩

/-- **The two-pointer loop compares all replacements that may conflict.** -/
theorem conflictsFrom_spec {n : ℕ} : ∀ {low low' : ℕ} {lefts rights : List Replacement},
    Spaced n low lefts → Spaced n low' rights → conflictsFrom lefts rights = false →
      ∀ left ∈ lefts, ∀ right ∈ rights, Clear left right
  | _, _, [], _, _, _, _ => nofun
  | low, low', left :: lefts, rights, h, h', hconflicts => by
    obtain ⟨-, hle, -, hrest⟩ := h
    unfold conflictsFrom at hconflicts
    dsimp only at hconflicts
    rw [or_eq_false_iff] at hconflicts
    obtain ⟨hhere, hlater⟩ := hconflicts
    -- the replacements behind, those compared, and those ahead
    have hsplit : ∀ right ∈ rights, right.stop < left.start ∨
        right ∈ rights.dropWhile fun right => right.stop < left.start := by
      intro right hright
      rw [← takeWhile_append_dropWhile (p := fun right : Replacement => right.stop < left.start)
        (l := rights)] at hright
      rcases mem_append.mp hright with hright | hright
      · exact .inl (by simpa using mem_takeWhile_imp hright)
      · exact .inr hright
    have hspaced := h'.dropWhile fun right => right.stop < left.start
    intro l hl right hright
    have hrange := (h'.le_stop right hright).1
    rcases mem_cons.mp hl with rfl | hl
    · rcases hsplit right hright with hbehind | hmem
      · exact clear_of_stop_lt hle hrange (.inl hbehind)
      by_cases hahead : right.start ≤ l.stop
      · refine clear_of_not_conflict hle hrange ?_
        have hord : (rights.dropWhile fun right => right.stop < l.start).Pairwise fun r s =>
            decide (s.start ≤ l.stop) = true → decide (r.start ≤ l.stop) = true := by
          refine (pairwise_of_spaced hspaced).imp_of_mem fun {r s} hr _ hlt => ?_
          have := (hspaced.le_stop r hr).1
          simp only [decide_eq_true_eq]
          omega
        rw [← takeWhile_append_dropWhile (p := fun right : Replacement =>
          right.start ≤ l.stop) (l := rights.dropWhile _)] at hmem
        rcases mem_append.mp hmem with hmem | hmem
        · exact eq_false_iff.mpr (any_eq_false.mp hhere right hmem)
        · exact absurd (decide_eq_true hahead) (not_of_mem_dropWhile hord right hmem)
      · exact clear_of_stop_lt hle hrange (.inr (not_le.mp hahead))
    · rcases hsplit right hright with hbehind | hmem
      · have hfar := hrest.le_start l hl
        exact clear_of_stop_lt (hrest.le_stop l hl).1 hrange (.inl (by omega))
      · exact conflictsFrom_spec hrest hspaced hlater l hl right hmem

theorem shiftReplacement_spec {r r' : Replacement} (h : shiftReplacement d r = .ok r') :
    r' = shifted d.replacements r := by
  unfold shiftReplacement shift at h
  split at h
  · cases h
  rename_i start hstart
  split at h
  · cases h
  rename_i stop hstop
  obtain rfl := ok.inj h
  split at hstart
  · cases hstart
  split at hstop
  · cases hstop
  rw [← ok.inj hstart, ← ok.inj hstop]
  rfl

theorem mapM_shiftReplacement : ∀ {rs rs' : List Replacement},
    rs.mapM (shiftReplacement d) = .ok rs' → rs' = rs.map (shifted d.replacements)
  | [], _, h => (ok.inj h).symm
  | r :: rs, rs', h => by
    rw [mapM_cons] at h
    rcases hr : shiftReplacement d r with _ | r'
    · rw [hr] at h
      cases h
    rw [hr] at h
    rcases hrs : rs.mapM (shiftReplacement d) with _ | rest
    · rw [hrs] at h
      cases h
    rw [hrs] at h
    obtain rfl := ok.inj h
    rw [map_cons, ← shiftReplacement_spec hr, ← mapM_shiftReplacement hrs]

/-- **A delta behind a concurrent one gives, on its result, the edit of both.** -/
theorem transformAfter_spec {n : ℕ} {e : Edit Char} (h : d.transformAfter other = .ok d')
    (hown : Spaced n 0 d.replacements) (hother : Spaced n 0 other.replacements)
    (hrender : renderFrom n 0 other.replacements = e.render n)
    (hgaps : ∀ r ∈ d.replacements, r.start = r.stop → e.gap r.start = []) :
    (∀ r ∈ d.replacements, ∀ s ∈ other.replacements, Clear r s) ∧
      spliceAll (d'.replacements.map (Span.map .fresh)) (e.render n) =
        (e.putAll d.replacements).render n := by
  unfold transformAfter at h
  split at h
  · cases h
  rename_i hconflicts
  have hclear := conflictsFrom_spec hown hother (eq_false_iff.mpr hconflicts)
  refine ⟨hclear, ?_⟩
  split at h
  · cases h
  rename_i rs hshift
  obtain rfl := mapM_shiftReplacement hshift
  unfold new at h
  split at h
  · cases h
  rename_i normalized hnew
  obtain rfl := ok.inj h
  have hbound : ∀ r ∈ [] ++ d.replacements.map (shifted other.replacements),
      r.stop ≤ (e.render n).length := by
    intro r' hr'
    obtain ⟨r, hr, rfl⟩ := mem_map.mp hr'
    have hle := (hown.le_stop r hr).1
    have hin := shift_le hother (Nat.zero_le r.stop) (hown.le_stop r hr).2 false fun s hs => by
      have := hclear r hr s hs
      unfold Clear at this
      omega
    have := removed_le hother r.stop false
    rw [hrender] at hin
    unfold shifted
    dsimp only
    omega
  obtain ⟨-, hall⟩ := newFrom_spec (Token.fresh (α := Char)) (e.render n) hnew nofun hbound
  rw [hall, ← spliceAll_shifted hother hrender hown hclear hgaps, map_map]
  rfl

/-! ## Normal deltas -/

/-- Replacements with kept text between any two of them, none of them without an effect. -/
structure Apart (rs : List Replacement) : Prop where
  ordered : ∀ r ∈ rs, r.start ≤ r.stop
  solid : Solid rs
  apart : rs.Pairwise fun r s => r.stop < s.start

theorem Apart.snoc {rs : List Replacement} {r : Replacement} (h : Apart rs)
    (hbehind : ∀ s ∈ rs, s.stop < r.start) (hle : r.start ≤ r.stop)
    (hsolid : r.start = r.stop → r.text ≠ []) : Apart (rs ++ [r]) where
  ordered := forall_mem_append.mpr ⟨h.ordered, by simpa using hle⟩
  solid := forall_mem_append.mpr ⟨h.solid, by simpa using hsolid⟩
  apart := pairwise_append.mpr ⟨h.apart, pairwise_singleton _ _, by simpa using hbehind⟩

theorem Apart.of_append {rs ss : List Replacement} (h : Apart (rs ++ ss)) : Apart rs :=
  ⟨fun r hr => h.ordered r (mem_append_left ss hr),
    fun r hr => h.solid r (mem_append_left ss hr), (pairwise_append.mp h.apart).1⟩

/-- Everything before the last replacement ends before it starts. -/
theorem Apart.stop_lt {rs : List Replacement} {previous : Replacement} (h : Apart (rs ++ [previous]))
    {s : Replacement} (hs : s ∈ rs) : s.stop < previous.start :=
  (pairwise_append.mp h.apart).2.2 s hs previous (mem_singleton_self _)

theorem Apart.behind {normalized : List Replacement} (h : Apart normalized) {p : ℕ}
    (hlast : ∀ previous, normalized.getLast? = some previous → previous.stop < p) :
    ∀ s ∈ normalized, s.stop < p := by
  intro s hs
  rcases eq_nil_or_concat normalized with rfl | ⟨rs, previous, rfl⟩
  · cases hs
  rw [concat_eq_append] at h hs hlast
  have hprevious := hlast previous (by simp)
  rcases mem_append.mp hs with hs | hs
  · have hlt := h.stop_lt hs
    have hle := h.ordered previous (by simp)
    omega
  · rwa [mem_singleton.mp hs]

/-- **What `Delta::new` accepts comes out apart.** -/
theorem apart_newFrom : ∀ {rs normalized out : List Replacement}, Apart normalized →
    newFrom normalized rs = .ok out → Apart out
  | [], normalized, out, h, hnew => by
    rw [newFrom] at hnew
    exact ok.inj hnew ▸ h
  | r :: rs, normalized, out, h, hnew => by
    rw [newFrom] at hnew
    split at hnew
    · cases hnew
    rename_i hle
    split at hnew
    · exact apart_newFrom h hnew
    rename_i hsolid
    have hsolid' : r.start = r.stop → r.text ≠ [] := fun heq htext => hsolid ⟨heq, htext⟩
    split at hnew
    · next hlast =>
      rw [getLast?_eq_none_iff.mp hlast] at hnew h
      exact apart_newFrom (h.snoc nofun (not_lt.mp hle) hsolid') hnew
    rename_i previous hlast
    split at hnew
    · cases hnew
    rename_i horder
    split at hnew
    · -- the two touch: they become one replacement that starts where the first did
      next htouch =>
      obtain ⟨init, rfl⟩ : ∃ init, normalized = init ++ [previous] :=
        getLast?_eq_some_iff.mp hlast
      have hprevious := h.ordered previous (by simp)
      rw [dropLast_concat] at hnew
      have hbehind : ∀ s ∈ init, s.stop < previous.start := fun s hs => h.stop_lt hs
      refine apart_newFrom
        (Apart.snoc (r := ⟨previous.start, r.stop, previous.text ++ r.text⟩) h.of_append hbehind
          ?_ ?_) hnew
      · dsimp only
        omega
      · dsimp only
        intro heq
        have htext := h.solid previous (by simp) (by omega)
        simp [htext]
    · next htouch =>
      refine apart_newFrom (h.snoc (h.behind fun p hp => ?_) (not_lt.mp hle) hsolid') hnew
      rw [hlast] at hp
      cases hp
      omega

theorem Apart.nil : Apart [] :=
  ⟨nofun, nofun, List.Pairwise.nil⟩

theorem apart_of_spaced {n : ℕ} : ∀ {low : ℕ} {rs : List Replacement}, Spaced n low rs → Solid rs →
    Apart rs
  | _, [], _, _ => Apart.nil
  | _, r :: rs, h, hsolid => by
    have hrest := apart_of_spaced h.2.2.2 hsolid.tail
    refine ⟨?_, hsolid, pairwise_cons.mpr ⟨fun s hs => ?_, hrest.apart⟩⟩
    · intro s hs
      rcases mem_cons.mp hs with rfl | hs
      · exact h.2.1
      · exact hrest.ordered s hs
    · exact Nat.lt_of_succ_le (h.2.2.2.le_start s hs)

/-- **The deltas there are**: the field is private, so one is empty, or checked by `Delta::new`, or
found by `Delta::between`. -/
inductive Built : Delta → Prop
  | empty : Built empty
  | new {rs : List Replacement} {d : Delta} (h : Delta.new rs = .ok d) : Built d
  | between {base view : Text} {budget budget' : DeltaBudget} {d : Delta}
      (h : Delta.between base view budget = .ok (d, budget')) : Built d

theorem Built.apart (h : Built d) : Apart d.replacements := by
  cases h with
  | empty => exact Apart.nil
  | new h =>
    unfold Delta.new at h
    split at h
    · cases h
    rename_i normalized hnew
    rw [← ok.inj h]
    exact apart_newFrom Apart.nil hnew
  | between h =>
    have hof := between_spec h
    exact apart_of_spaced hof.spaced hof.solid

end Delta

end Mica
