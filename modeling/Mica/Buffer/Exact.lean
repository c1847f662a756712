import Mica.Buffer.Provenance

/-!
# Buffer/Exact — the delta between a base and a view that was edited from it

A view that replacements have made of a base has pieces of two kinds: parts of one piece of the
base, and parts of chunks that are new (`FromBase`).  What it keeps stands in the order of the base
(`Rising`).  So `between` meets no foreign piece, and nothing but its budget can stop it
(`between_cases`); what it then finds is the edit (`between_spec`).
-/

open SpanEdit List

namespace Mica

/-! ## Views -/

namespace Text

variable {base view view' : Text}

/-- One replacement after the other.  The base stays alive, so that no new chunk is at an address of
one of its own. -/
def replaceAll (base : Text) : List (Replacement × Supply) → Text → Except TextError Text
  | [], view => .ok view
  | (r, supply) :: edits, view =>
    match view.replace r.start r.stop r.text ⟨supply.root, max supply.chunk base.bound⟩ with
    | .error e => .error e
    | .ok view => replaceAll base edits view

/-- What the edits keep of a sequence and what they insert, whatever the chunks are. -/
def trace : List (Replacement × Supply) → List (Token Char) → List (Token Char)
  | [], tokens => tokens
  | (r, _) :: edits, tokens => trace edits (splice tokens r.start r.stop (r.text.map .fresh))

/-- A part of a piece of the base, or of a chunk that the base does not have. -/
def FromBase (base : Text) (p : Piece) : Prop :=
  base.bound ≤ p.chunk.id ∨ ∃ q ∈ base.pieces, Pieces.Within p q

theorem FromBase.within {p q : Piece} (h : base.FromBase q) (hpq : Pieces.Within p q) :
    base.FromBase p := by
  rcases h with h | ⟨o, ho, hqo⟩
  · exact .inl (hpq.1 ▸ h)
  · exact .inr ⟨o, ho, hpq.trans hqo⟩

theorem fromBase_replace {start stop : ℕ} {text : List Char} {supply : Supply}
    (h : view.replace start stop text supply = .ok view') (hsupply : base.bound ≤ supply.chunk)
    (hview : ∀ p ∈ view.pieces, base.FromBase p) : ∀ p ∈ view'.pieces, base.FromBase p := by
  unfold replace at h
  split at h
  · cases h
  split at h
  · obtain rfl := Except.ok.inj h
    exact hview
  obtain rfl := Except.ok.inj h
  intro p hp
  rcases mem_append.mp hp with hp | hp
  · rcases mem_append.mp hp with hp | hp
    · obtain ⟨q, hq, hwithin⟩ := Pieces.exists_within_of_mem_split (.inl hp)
      exact (hview q hq).within hwithin
    · exact .inl (hsupply.trans ((le_max_left _ _).trans (le_id_newPieces hp)))
  · obtain ⟨q, hq, hwithin⟩ := Pieces.exists_within_of_mem_split (.inr hp)
    obtain ⟨q', hq', hwithin'⟩ := Pieces.exists_within_of_mem_split (.inr hq)
    exact (hview q' hq').within (hwithin.trans hwithin')

/-- What holds of every view that was edited from a base. -/
structure Edited (base view : Text) : Prop where
  fromBase : ∀ p ∈ view.pieces, base.FromBase p
  rising : Rising (base.tokens view)
  shows : base.Shows view

theorem Edited.self (base : Text) : Edited base base where
  fromBase := fun p hp => .inr ⟨p, hp, Pieces.Within.refl p⟩
  rising := by
    rw [tokens_self]
    exact rising_keptRange 0 base.len
  shows := base.shows_self

theorem Edited.replace {start stop : ℕ} {text : List Char} {supply : Supply}
    (hview : Edited base view) (h : view.replace start stop text supply = .ok view')
    (hsupply : base.bound ≤ supply.chunk) : Edited base view' where
  fromBase := fromBase_replace h hsupply hview.fromBase
  rising := by
    rw [tokens_replace base h hsupply]
    exact hview.rising.splice (range_of_replace h).1 text
  shows := hview.shows.replace h hsupply

/-- **A sequence of replacements** keeps what they keep, and its view is an edited one. -/
theorem replaceAll_spec : ∀ {edits : List (Replacement × Supply)} {view view' : Text},
    Edited base view → replaceAll base edits view = .ok view' →
    Edited base view' ∧ base.tokens view' = trace edits (base.tokens view)
  | [], _, _, hview, h => by
    obtain rfl := Except.ok.inj h
    exact ⟨hview, rfl⟩
  | (r, supply) :: edits, view, view', hview, h => by
    unfold replaceAll at h
    split at h
    · cases h
    rename_i view₁ hreplace
    have hsupply : base.bound ≤ max supply.chunk base.bound := le_max_right _ _
    obtain ⟨hview', htokens⟩ := replaceAll_spec (hview.replace hreplace hsupply) h
    refine ⟨hview', ?_⟩
    rw [htokens, tokens_replace base hreplace hsupply, trace]

end Text

/-! ## What a step spends -/

namespace DeltaBudget

/-- A budget with so many pieces, bytes of text and replacements. -/
def Covers (b : DeltaBudget) (pieces textBytes replacements : ℕ) : Prop :=
  pieces ≤ b.pieces ∧ textBytes ≤ b.textBytes ∧ replacements ≤ b.replacements

end DeltaBudget

def Piece.bytes (p : Piece) : ℕ := (p.text.map Char.utf8Size).sum

def Pieces.bytes (ps : List Piece) : ℕ := (ps.map Piece.bytes).sum

namespace Between

variable {base : Text} {s s' : Between} {n retained : ℕ}

/-- Only a budget below the amounts stops a step, and it spends no more than them. -/
def Spends (b : DeltaBudget) (pieces textBytes replacements : ℕ) (r : Except DeltaError Between) :
    Prop :=
  (r = .error .budgetExceeded ∧ ¬ b.Covers pieces textBytes replacements) ∨
    ∃ s', r = .ok s' ∧ ∀ x y z, b.Covers (pieces + x) (textBytes + y) (replacements + z) →
      s'.budget.Covers x y z

theorem spends_flush (s : Between) (retained : ℕ) : Spends s.budget 0 0 1 (s.flush retained) := by
  unfold flush
  split
  · exact .inr ⟨s, rfl, fun x y z h => ⟨by simpa using h.1, by simpa using h.2.1,
      (Nat.le_add_left z 1).trans h.2.2⟩⟩
  unfold DeltaBudget.takeReplacement
  by_cases hnone : s.budget.replacements < 1
  · rw [if_pos hnone]
    exact .inl ⟨rfl, fun h => absurd h.2.2 (not_le.mpr hnone)⟩
  rw [if_neg hnone]
  refine .inr ⟨_, rfl, fun x y z h => ⟨by simpa using h.1, by simpa using h.2.1, ?_⟩⟩
  have := h.2.2
  dsimp only
  omega

theorem spends_insert (s : Between) (p : Piece) : Spends s.budget 0 p.bytes 0 (s.insert p) := by
  unfold insert DeltaBudget.takeText
  by_cases hnone : s.budget.textBytes < (p.text.map Char.utf8Size).sum
  · rw [if_pos hnone]
    exact .inl ⟨rfl, fun h => absurd h.2.1 (not_le.mpr hnone)⟩
  rw [if_neg hnone]
  refine .inr ⟨_, rfl, fun x y z h => ⟨by simpa using h.1, ?_, by simpa using h.2.2⟩⟩
  have := h.2.1
  unfold Piece.bytes at this
  dsimp only
  omega

theorem Spends.mono {b : DeltaBudget} {p p' t t' c c' : ℕ} {r : Except DeltaError Between}
    (h : Spends b p t c r) (hp : p ≤ p') (ht : t ≤ t') (hc : c ≤ c') : Spends b p' t' c' r := by
  rcases h with ⟨herr, hnot⟩ | ⟨s', hok, hleft⟩
  · exact .inl ⟨herr, fun hcov => hnot ⟨hp.trans hcov.1, ht.trans hcov.2.1, hc.trans hcov.2.2⟩⟩
  · refine .inr ⟨s', hok, fun x y z hcov => hleft x y z ⟨?_, ?_, ?_⟩⟩
    · exact (Nat.add_le_add_right hp x).trans hcov.1
    · exact (Nat.add_le_add_right ht y).trans hcov.2.1
    · exact (Nat.add_le_add_right hc z).trans hcov.2.2

/-! ## No piece is foreign -/

/-- The cursor is behind the last item that was kept. -/
theorem Sound.cursor_le_of_rising {rest : List (Token Char)} (h : s.Sound n)
    (hrising : Rising (s.rendered ++ .kept retained :: rest)) : s.cursor ≤ retained := by
  by_contra hlt
  have hfree : Free s.out (s.cursor - 1) := fun r hr hin => by
    have := h.behind r hr
    omega
  have hkept : Token.kept (s.cursor - 1) ∈ s.rendered :=
    mem_append_left _ ((mem_renderFrom_iff h.spaced (by omega)).mpr hfree)
  have hcross := (pairwise_append.mp hrising).2.2 _ hkept _ mem_cons_self _ _ rfl rfl
  omega

theorem retain_done (stop : ℕ) (s : Between) : ∀ spans : List BaseSpan,
    retain stop spans stop s = .ok (stop, s)
  | [] => rfl
  | span :: spans => by rw [retain, if_pos rfl]

/-- A part of a piece of the base lies in one span of its chunk. -/
theorem exists_span {p q : Piece} (hq : q ∈ base.pieces) (hwithin : Pieces.Within p q) :
    ∃ before span after, baseSpans p.chunk.id 0 base.pieces = before ++ span :: after ∧
      (∀ d ∈ before, d.stop ≤ p.start) ∧ span.start ≤ p.start ∧ p.stop ≤ span.stop := by
  obtain ⟨ps, qs, hsplit⟩ := append_of_mem hq
  obtain ⟨hchunk, hstart, hstop⟩ := hwithin
  have hspans := baseSpans_append p.chunk.id (q :: qs) 0 ps
  rw [← hsplit, baseSpans, if_pos (by rw [hchunk])] at hspans
  refine ⟨_, _, _, hspans, fun d hd => ?_, hstart, hstop⟩
  obtain ⟨p', hp', hid, -, hdstop, -⟩ := exists_of_mem_baseSpans hd
  have hord := base.ordered
  rw [hsplit] at hord
  have hcross := (pairwise_append.mp hord).2.2 p' hp' q mem_cons_self
    (hid.trans (by rw [hchunk]))
  rw [hdstop]
  exact hcross.2.trans hstart

/-- A piece of a chunk of the base, by the outcome of its spans. -/
theorem piece_of_retain {p : Piece} {span : BaseSpan} {after : List BaseSpan}
    (hdrop : (baseSpans p.chunk.id 0 base.pieces).dropWhile
      (fun span => decide (span.stop ≤ p.start)) = span :: after) :
    (∀ e, retain p.stop (span :: after) p.start s = .error e → piece base s p = .error e) ∧
      ∀ s', retain p.stop (span :: after) p.start s = .ok (p.stop, s') →
        piece base s p = .ok s' := by
  unfold piece
  split
  · next hnil =>
    rw [hnil] at hdrop
    cases hdrop
  rename_i hcons
  rw [← hcons, hdrop]
  refine ⟨fun e herr => ?_, fun s' hok => ?_⟩
  · rw [herr]
  · rw [hok]
    exact if_neg (not_not_intro rfl)

/-- **A piece of the view is never foreign.** -/
theorem spends_piece {p : Piece} {rest : List (Token Char)} (h : s.Sound base.len)
    (hfrom : base.FromBase p) (hrising : Rising (s.rendered ++ (p.read base.token ++ rest))) :
    Spends s.budget 1 p.bytes 1 (piece base s p) := by
  rcases hfrom with hnew | ⟨q, hq, hwithin⟩
  · have hnone : baseSpans p.chunk.id 0 base.pieces = [] := baseSpans_eq_nil fun q hq hid =>
      absurd (Text.id_lt_bound hq) (by rw [hid]; exact not_lt.mpr hnew)
    unfold piece
    rw [hnone]
    exact (spends_insert s p).mono (Nat.zero_le 1) le_rfl (Nat.zero_le 1)
  obtain ⟨before, span, after, hspans, hbefore, hstart, hstop⟩ := exists_span hq hwithin
  have hlt := p.start_lt
  have hread : p.read base.token = .kept (span.offset + p.start - span.start) ::
      (List.range' (p.start + 1) (p.len - 1)).map (base.token p.chunk) := by
    unfold Piece.read
    rw [show p.len = p.len - 1 + 1 from (Nat.sub_add_cancel p.len_pos).symm, range'_succ,
      map_cons, Text.token_of_span hspans hbefore hstart (hlt.trans_le hstop)]
    rfl
  rw [hread, cons_append] at hrising
  have hcursor := h.cursor_le_of_rising hrising
  have hdrop : (baseSpans p.chunk.id 0 base.pieces).dropWhile
      (fun span => decide (span.stop ≤ p.start)) = span :: after := by
    rw [hspans, dropWhile_append_of_pos fun d hd => by simpa using hbefore d hd,
      dropWhile_cons_of_neg (by simpa using hlt.trans_le hstop)]
  obtain ⟨hfail, hdone⟩ := piece_of_retain (s := s) hdrop
  rw [retain, if_neg hlt.ne] at hfail hdone
  by_cases hpieces : s.budget.pieces < 1
  · refine .inl ⟨hfail _ ?_, fun hcov => absurd hcov.1 (not_le.mpr hpieces)⟩
    rw [DeltaBudget.takePieces, if_pos hpieces]
  rw [DeltaBudget.takePieces, if_neg hpieces] at hfail hdone
  dsimp only at hfail hdone
  rw [if_neg (not_lt.mpr hstart), if_neg (not_lt.mpr hcursor), min_eq_left hstop]
    at hfail hdone
  rcases spends_flush { s with budget := { s.budget with pieces := s.budget.pieces - 1 } }
      (span.offset + p.start - span.start) with ⟨herr, hnot⟩ | ⟨s₁, hok, hleft⟩
  · rw [herr] at hfail
    exact .inl ⟨hfail _ rfl, fun hcov => hnot ⟨Nat.zero_le _, Nat.zero_le _, hcov.2.2⟩⟩
  · rw [hok] at hdone
    dsimp only at hdone
    rw [retain_done] at hdone
    refine .inr ⟨_, hdone _ rfl, fun x y z hcov => hleft x y z ⟨?_, ?_, hcov.2.2⟩⟩
    · have := hcov.1
      dsimp only
      omega
    · have := hcov.2.1
      dsimp only
      omega

/-- The pieces of the view. -/
theorem spends_pieces : ∀ {ps : List Piece} {s : Between}, s.Sound base.len →
    (∀ p ∈ ps, base.FromBase p) → Rising (s.rendered ++ Pieces.read base.token ps) →
    Spends s.budget ps.length (Pieces.bytes ps) ps.length (pieces base ps s)
  | [], s, _, _, _ => .inr ⟨s, rfl, fun x y z h => ⟨by simpa using h.1,
      by simpa [Pieces.bytes] using h.2.1, by simpa using h.2.2⟩⟩
  | p :: ps, s, h, hfrom, hrising => by
    have hbytes : Pieces.bytes (p :: ps) = p.bytes + Pieces.bytes ps := by
      unfold Pieces.bytes
      rw [map_cons, sum_cons]
    rw [Pieces.read_cons] at hrising
    unfold pieces
    rcases spends_piece h (hfrom p mem_cons_self) hrising with ⟨herr, hnot⟩ | ⟨s₁, hok, hleft⟩
    · rw [herr]
      refine .inl ⟨rfl, fun hcov => hnot ⟨?_, ?_, ?_⟩⟩
      · exact (Nat.le_add_left 1 ps.length).trans hcov.1
      · exact (Nat.le_add_right p.bytes _).trans (hbytes ▸ hcov.2.1)
      · exact (Nat.le_add_left 1 ps.length).trans hcov.2.2
    obtain ⟨hsound, hrender⟩ := piece_spec h hok
    rw [← append_assoc, ← hrender] at hrising
    have hrest := spends_pieces hsound (fun p' hp' => hfrom p' (mem_cons_of_mem p hp'))
      hrising
    rw [hok]
    dsimp only
    have hsum : ∀ {x y z : ℕ}, s.budget.Covers ((p :: ps).length + x) (Pieces.bytes (p :: ps) + y)
        ((p :: ps).length + z) →
        s₁.budget.Covers (ps.length + x) (Pieces.bytes ps + y) (ps.length + z) := by
      intro x y z hcov
      rw [length_cons, hbytes] at hcov
      exact hleft _ _ _ ⟨by have := hcov.1; omega, by have := hcov.2.1; omega,
        by have := hcov.2.2; omega⟩
    rcases hrest with ⟨herr, hnot⟩ | ⟨s₂, hok₂, hleft₂⟩
    · exact .inl ⟨herr, fun hcov => hnot (hsum (x := 0) (y := 0) (z := 0) hcov)⟩
    · exact .inr ⟨s₂, hok₂, fun x y z hcov => hleft₂ x y z (hsum hcov)⟩

end Between

/-! ## The delta -/

namespace Delta

variable {base view : Text} {budget : DeltaBudget}

/-- Enough for `between`: both lists of pieces, a span for each piece of the view, its text, and a
replacement before each piece and at the end. -/
def Enough (base view : Text) (budget : DeltaBudget) : Prop :=
  budget.Covers (base.pieces.length + view.pieces.length + view.pieces.length)
    (Pieces.bytes view.pieces) (view.pieces.length + 1)

/-- **Nothing but the budget stops `between`.** -/
theorem between_cases (hview : base.Edited view) (budget : DeltaBudget) :
    (between base view budget = .error .budgetExceeded ∧ ¬ Enough base view budget) ∨
      ∃ d rest, between base view budget = .ok (d, rest) := by
  unfold between
  split
  · exact .inr ⟨_, _, rfl⟩
  unfold DeltaBudget.takePieces
  by_cases hbase : budget.pieces < base.pieces.length
  · rw [if_pos hbase]
    refine .inl ⟨rfl, fun hcov => ?_⟩
    have := hcov.1
    omega
  rw [if_neg hbase]
  dsimp only
  by_cases hpieces : budget.pieces - base.pieces.length < view.pieces.length
  · rw [if_pos hpieces]
    refine .inl ⟨rfl, fun hcov => ?_⟩
    have := hcov.1
    omega
  rw [if_neg hpieces]
  dsimp only
  have hspend := Between.spends_pieces (s := ⟨[], 0, [], { budget with
    pieces := budget.pieces - base.pieces.length - view.pieces.length }⟩)
    (Between.Sound.start base.len _) hview.fromBase hview.rising
  rcases hspend with ⟨herr, hnot⟩ | ⟨s, hok, hleft⟩
  · rw [herr]
    refine .inl ⟨rfl, fun hcov => hnot ⟨?_, hcov.2.1, (Nat.le_succ _).trans hcov.2.2⟩⟩
    have := hcov.1
    dsimp only
    omega
  rw [hok]
  dsimp only
  rcases Between.spends_flush s base.len with ⟨herr, hnot⟩ | ⟨s', hok', -⟩
  · rw [herr]
    refine .inl ⟨rfl, fun hcov => hnot (hleft 0 0 1 ⟨?_, hcov.2.1, hcov.2.2⟩)⟩
    have := hcov.1
    dsimp only
    omega
  · rw [hok']
    exact .inr ⟨_, _, rfl⟩

/-- **The delta between a base and a view edited from it is the edit.**  `between` never finds a
foreign piece, and with enough budget it returns replacements that are in order with a kept item
between any two, leave out exactly what every edit kept, and make the view of the base. -/
theorem between_exact (base view : Text) (edits : List (Replacement × Supply))
    (hview : base.replaceAll edits base = .ok view) :
    (∀ budget, between base view budget ≠ .error .foreignProvenance) ∧
    ∀ budget, Enough base view budget → ∃ d rest, between base view budget = .ok (d, rest) ∧
      (∀ r ∈ d.replacements, r.start ≤ r.stop ∧ r.stop ≤ base.len) ∧
      d.replacements.Pairwise (fun r r' => r.stop < r'.start) ∧
      (∀ i < base.len, .kept i ∈ Text.trace edits (keptRange 0 base.len) ↔
        ∀ r ∈ d.replacements, ¬ (r.start ≤ i ∧ i < r.stop)) ∧
      ∀ supply, ∃ text, d.apply base supply = .ok text ∧ text.toText = view.toText := by
  obtain ⟨hedited, htokens⟩ := Text.replaceAll_spec (Text.Edited.self base) hview
  rw [Text.tokens_self] at htokens
  refine ⟨fun budget hforeign => ?_, fun budget henough => ?_⟩
  · rcases between_cases hedited budget with ⟨herr, -⟩ | ⟨d, rest, hok⟩
    · rw [herr] at hforeign
      cases hforeign
    · rw [hok] at hforeign
      cases hforeign
  obtain ⟨d, rest, hok⟩ := (between_cases hedited budget).resolve_left fun h => h.2 henough
  have hof := between_spec hok
  refine ⟨d, rest, hok, hof.spaced.le_stop, pairwise_of_spaced hof.spaced, fun i hi => ?_,
    hof.apply hedited.shows⟩
  rw [← htokens, ← hof.render]
  exact mem_renderFrom_iff hof.spaced hi

/-- An insertion into a text of two characters, with the budget that is the default. -/
theorem between_exact_insertion :
    ∃ view, (Text.fromText ['a', 'b'] ⟨1, 0⟩).replaceAll [(⟨1, 1, ['x']⟩, ⟨2, 1⟩)]
        (Text.fromText ['a', 'b'] ⟨1, 0⟩) = .ok view ∧
      (∀ budget, between (Text.fromText ['a', 'b'] ⟨1, 0⟩) view budget ≠
        .error .foreignProvenance) ∧
      ∃ d rest, between (Text.fromText ['a', 'b'] ⟨1, 0⟩) view .default = .ok (d, rest) := by
  have hexact := between_exact (Text.fromText ['a', 'b'] ⟨1, 0⟩) _ [(⟨1, 1, ['x']⟩, ⟨2, 1⟩)] rfl
  refine ⟨_, rfl, hexact.1, ?_⟩
  obtain ⟨d, rest, hok, -⟩ := hexact.2 .default ⟨by decide, by decide, by decide⟩
  exact ⟨d, rest, hok⟩

end Delta

end Mica
