import Mica.Buffer.RopeText

/-!
# Buffer/RopeQueries — what a text answers is what the plain string says

`PlainText` says on a list of characters what a slice, a line, a column and a search are.  A rope
`Shows` a string if all its answers are those of the string and its tree is balanced with right
counts; texts that are made show the string they are made of, and every replacement splices the
string they show.
-/

open SpanEdit List Option

namespace Mica

/-! ## Plain strings -/

namespace PlainText

def slice (s : List Char) (start stop : ℕ) : Except TextError (List Char) :=
  if stop < start ∨ s.length < stop then .error .invalidRange else .ok ((s.take stop).drop start)

/-- Where a line starts. -/
def lineStart (s : List Char) (line : ℕ) : Except TextError ℕ :=
  (Lines.start '\n' s line).elim (.error .invalidLine) .ok

/-- The line of a position and the characters before it in the line. -/
def lineColumn (s : List Char) (position : ℕ) : Except TextError (ℕ × ℕ) :=
  if s.length < position then .error .invalidRange
  else .ok ((s.take position).count '\n', Lines.column '\n' (s.take position))

/-- From the start of a line to the newline after it, or to the end. -/
def lineSpan (s : List Char) (line : ℕ) : Except TextError (ℕ × ℕ) :=
  (Lines.start '\n' s line).elim (.error .invalidLine) fun start =>
    .ok (start, start + ((s.drop start).takeWhile (· ≠ '\n')).length)

/-- The end of the window of a search; no limit leaves the rest of the text. -/
def windowEnd (s : List Char) (start limit : ℕ) : ℕ :=
  if limit = 0 then s.length else min (start + limit) s.length

/-- A word stands at a position within a window. -/
structure MatchIn (s word : List Char) (start stop n : ℕ) : Prop where
  le : start ≤ n
  fits : n + word.length ≤ stop
  stands : word <+: s.drop n

/-- The first place of a word within a window. -/
def FirstIn (s word : List Char) (start stop n : ℕ) : Prop :=
  MatchIn s word start stop n ∧ ∀ m, MatchIn s word start stop m → n ≤ m

/-- A replacement of a range; it fails where the range is out of the text. -/
def replace (s : List Char) (r : Span Char) : Except TextError (List Char) :=
  if r.stop < r.start ∨ s.length < r.stop then .error .invalidRange
  else .ok (splice s r.start r.stop r.text)

/-- Replacements in turn; one that fails leaves the text as it is. -/
def replaceEach : List Char → List (Span Char) → List Char × List (Option TextError)
  | s, [] => (s, [])
  | s, r :: rest =>
    match replace s r with
    | .error e => ((replaceEach s rest).1, some e :: (replaceEach s rest).2)
    | .ok s' => ((replaceEach s' rest).1, none :: (replaceEach s' rest).2)

end PlainText

/-- Replacements in turn, each with the addresses that it is given; one that fails leaves the text
as it is. -/
def Text.replaceEach : Text → List (Span Char × Supply) → Text × List (Option TextError)
  | t, [] => (t, [])
  | t, (r, supply) :: rest =>
    match t.replace r.start r.stop r.text supply with
    | .error e => ((replaceEach t rest).1, some e :: (replaceEach t rest).2)
    | .ok t' => ((replaceEach t' rest).1, none :: (replaceEach t' rest).2)

namespace Rope

variable {rope : Rope} {start stop : ℕ}

/-- All nodes of the tree. -/
def nodes (rope : Rope) : List TextNode := rope.root.elim [] JoinTree.subtrees

/-- Replacements in turn, each with the number of its first new chunk; one that fails leaves the
text as it is. -/
def replaceEach : Rope → List (Span Char × ℕ) → Option (Rope × List (Option TextError))
  | rope, [] => some (rope, [])
  | rope, (r, next) :: rest => do
    match ← rope.replace r.start r.stop r.text next with
    | .error e =>
      let (rope, errors) ← replaceEach rope rest
      some (rope, some e :: errors)
    | .ok rope =>
      let (rope, errors) ← replaceEach rope rest
      some (rope, none :: errors)

/-- **What a rope shows**: all its answers are those of the string, its nodes count what is below them,
and it is balanced. -/
structure Shows (rope : Rope) (s : List Char) : Prop where
  counts : ∀ node ∈ rope.nodes, node.summary = ⟨(TextNode.content node).length,
    Utf8.byteLen (TextNode.content node), (TextNode.content node).count '\n'⟩
  balanced : ∀ node ∈ rope.nodes, node.height = node.depth ∧ ∀ a b, node.children = some (a, b) →
    a.depth ≤ b.depth + 1 ∧ b.depth ≤ a.depth + 1
  toText : rope.toText = some s
  len : rope.len = s.length
  byteLen : rope.byteLen = Utf8.byteLen s
  lineCount : rope.lineCount = s.count '\n' + 1
  slice : ∀ start stop, rope.slice start stop = some (PlainText.slice s start stop)
  lineStart : ∀ line, rope.lineStart line = some (PlainText.lineStart s line)
  lineColumn : ∀ position, rope.lineColumn position = some (PlainText.lineColumn s position)
  lineSpan : ∀ line, rope.lineSpan line = some (PlainText.lineSpan s line)
  find : ∀ pattern start limit, ∃ found, rope.find pattern start limit = some found ∧
    ∀ n, found = some n ↔ pattern ≠ [] ∧
      PlainText.FirstIn s pattern start (PlainText.windowEnd s start limit) n

/-! ## Every answer -/

theorem content_some (node : TextNode) : content ⟨some node⟩ = TextNode.content node := rfl

theorem Sound.byteLen_eq (h : Sound rope) : rope.byteLen = Utf8.byteLen rope.content := by
  match rope, h with
  | ⟨none⟩, _ => rfl
  | ⟨some node⟩, h => exact congrArg TextCounts.bytes h.root.summary_eq

theorem Sound.lineCount_eq (h : Sound rope) : rope.lineCount = rope.content.count '\n' + 1 := by
  match rope, h with
  | ⟨none⟩, _ => rfl
  | ⟨some node⟩, h => exact congrArg (· + 1) h.root.newlines_eq

theorem Sound.toText_eq (h : Sound rope) : rope.toText = some rope.content := by
  match rope, h with
  | ⟨none⟩, _ => rfl
  | ⟨some node⟩, h =>
    refine (h.root.appendRange_eq le_rfl []).trans ?_
    rw [nil_append, drop_zero, h.root.scalars_eq, take_length]
    rfl

theorem Sound.invalidRange_iff (h : Sound rope) :
    rope.InvalidRange start stop ↔ stop < start ∨ rope.content.length < stop := by
  rw [InvalidRange, h.len_eq]

theorem Sound.slice_eq (h : Sound rope) (start stop : ℕ) :
    rope.slice start stop = some (PlainText.slice rope.content start stop) := by
  rw [slice, PlainText.slice, if_congr h.invalidRange_iff rfl rfl]
  split
  · rfl
  rename_i hrange
  rw [not_or, not_lt, not_lt] at hrange
  match rope, h with
  | ⟨none⟩, _ =>
    change some (Except.ok []) = some (Except.ok ((([] : List Char).take stop).drop start))
    rw [take_nil, drop_nil]
  | ⟨some node⟩, h =>
    dsimp only
    rw [h.root.appendRange_eq (h.root.scalars_eq.symm ▸ hrange.2), nil_append]
    rfl

theorem Sound.lineStart_eq (h : Sound rope) (line : ℕ) :
    rope.lineStart line = some (PlainText.lineStart rope.content line) := by
  rw [lineStart, PlainText.lineStart, h.lineCount_eq]
  split
  · next hle =>
    rw [Lines.start_eq_none_iff.mpr hle]
    rfl
  rename_i hlt
  cases line with
  | zero =>
    rw [if_pos rfl, Lines.start]
    rfl
  | succ line =>
    have hin : line < rope.content.count '\n' := by omega
    rcases rope with ⟨_ | node⟩
    · exact absurd hin (Nat.not_lt_zero _)
    · rw [if_neg (Nat.succ_ne_zero _), Nat.add_sub_cancel, Lines.start_succ, bind_eq_bind,
        bind_some, h.root.newlinePosition_eq (h.root.newlines_eq.symm ▸ hin), content_some]
      have hpos : line < (Lines.positions '\n' (TextNode.content node)).length := by
        rwa [Lines.length_positions]
      rw [getElem?_eq_getElem hpos]
      rfl

theorem Sound.lineColumn_eq (h : Sound rope) (position : ℕ) :
    rope.lineColumn position = some (PlainText.lineColumn rope.content position) := by
  rw [lineColumn, PlainText.lineColumn, h.len_eq]
  split
  · rfl
  rename_i hle
  have hline : rope.root.elim 0 (TextNode.newlinesBefore · position) =
      (rope.content.take position).count '\n' := by
    match rope, h with
    | ⟨none⟩, _ => simp [content, pieces]
    | ⟨some node⟩, h => exact h.root.newlinesBefore_eq (h.root.scalars_eq.symm ▸ not_lt.mp hle)
  have hcolumn : Lines.column '\n' (rope.content.take position) ≤ position :=
    (rtakeWhile_suffix _ _).length_le.trans (length_take_le _ _)
  dsimp only
  rw [hline, h.lineStart_eq, PlainText.lineStart, Lines.start_count_take '\n' (not_lt.mp hle),
    bind_eq_bind, bind_some]
  change some (Except.ok (_, position - (position - _))) = _
  rw [Nat.sub_sub_self hcolumn]

theorem Sound.lineSpan_eq (h : Sound rope) (line : ℕ) :
    rope.lineSpan line = some (PlainText.lineSpan rope.content line) := by
  rw [lineSpan, PlainText.lineSpan, h.lineStart_eq, h.lineStart_eq, h.lineCount_eq,
    bind_eq_bind, bind_some, PlainText.lineStart, PlainText.lineStart]
  rcases hstart : Lines.start '\n' rope.content line with _ | n
  · rfl
  · obtain ⟨hle, hnext⟩ := Lines.start_succ_of_start '\n' rope.content line hstart
    dsimp only [Option.elim]
    split
    · next hlt =>
      have hsome : Lines.start '\n' rope.content (line + 1) ≠ none := by
        rw [Ne, Lines.start_eq_none_iff]
        omega
      split at hnext
      · rw [hnext]
        rfl
      · exact absurd hnext hsome
    rename_i hge
    have hnone : Lines.start '\n' rope.content (line + 1) = none :=
      Lines.start_eq_none_iff.mpr (by omega)
    have hlast : '\n' ∉ rope.content.drop n := by
      intro hmem
      rw [if_pos hmem, hnone] at hnext
      cases hnext
    have hwhole : (rope.content.drop n).takeWhile (· ≠ '\n') = rope.content.drop n := by
      rw [takeWhile_eq_self_iff]
      rintro c hc
      exact decide_eq_true (ne_of_mem_of_not_mem hc hlast)
    rw [hwhole, length_drop, Nat.add_sub_cancel' hle, h.len_eq]

/-! ### Searching -/

/-- The first place in the part of a text is the first one within the window. -/
theorem firstIn_iff (s : List Char) {word : List Char} (hword : word ≠ []) {start stop : ℕ}
    (hstop : stop ≤ s.length) (n : ℕ) :
    (∃ i, n = start + i ∧ Borders.FirstAt word ((s.take stop).drop start) i) ↔
      PlainText.FirstIn s word start stop n := by
  have hpos := length_pos_of_ne_nil hword
  -- a place in the part of the text is one within the window
  have hmatch : ∀ i, word <+: ((s.take stop).drop start).drop i ↔
      PlainText.MatchIn s word start stop (start + i) := by
    intro i
    rw [drop_drop, drop_take]
    refine ⟨fun h => ⟨Nat.le_add_right _ _, ?_, h.trans (List.take_prefix _ _)⟩, fun h => ?_⟩
    · have hlen := h.length_le
      rw [length_take] at hlen
      omega
    · exact prefix_of_prefix_length_le h.stands (List.take_prefix _ _)
        (by rw [length_take, length_drop]; have := h.fits; omega)
  constructor
  · rintro ⟨i, rfl, hstands, hfirst⟩
    refine ⟨(hmatch i).mp hstands, fun m hm => ?_⟩
    obtain ⟨j, rfl⟩ := Nat.exists_eq_add_of_le hm.le
    by_contra hlt
    exact hfirst j (by omega) ((hmatch j).mpr hm)
  rintro ⟨hn, hfirst⟩
  obtain ⟨i, rfl⟩ := Nat.exists_eq_add_of_le hn.le
  refine ⟨i, rfl, (hmatch i).mpr hn, fun j hj hearlier => ?_⟩
  have hle := hfirst _ ((hmatch j).mp hearlier)
  omega

/-- **A search finds the first place of a word that is not empty.** -/
theorem Sound.exists_find (h : Sound rope) (pattern : List Char) (start limit : ℕ) :
    ∃ found, rope.find pattern start limit = some found ∧ ∀ n, found = some n ↔ pattern ≠ [] ∧
      PlainText.FirstIn rope.content pattern start
        (PlainText.windowEnd rope.content start limit) n := by
  have hwindow : PlainText.windowEnd rope.content start limit ≤ rope.content.length := by
    rw [PlainText.windowEnd]
    split
    · exact le_rfl
    · exact min_le_right _ _
  rw [find, h.len_eq]
  split
  · next hnone =>
    refine ⟨none, rfl, fun n => ⟨fun h => (by cases h), ?_⟩⟩
    rintro ⟨hpattern, hfirst, -⟩
    have hpos := length_pos_of_ne_nil hpattern
    have hle := hfirst.le
    have hfits := hfirst.fits
    rcases hnone with hempty | hend
    · exact absurd hempty hpattern
    · omega
  · next hsome =>
    rw [not_or, not_le] at hsome
    rcases rope with ⟨_ | node⟩
    · exact absurd hsome.2 (Nat.not_lt_zero _)
    · rw [content_some] at hwindow
      have hvisit : TextNode.visitRange _ node start _ (Borders.Progress.mk 0 start none) = _ :=
        h.root.visitRange_eq (TextNode.sequential_visit pattern (Borders.table pattern)) node
          (h.root.scalars_eq.symm ▸ hwindow)
      rw [PlainText.windowEnd] at hvisit
      rw [bind_eq_bind, bind_some]
      dsimp only
      rw [content_some, hvisit]
      refine ⟨_, rfl, fun n => ?_⟩
      rw [← PlainText.windowEnd, Borders.found_visit_iff hsome.1]
      exact (firstIn_iff _ hsome.1 hwindow n).trans (and_iff_right hsome.1).symm

/-! ## A sound rope shows its characters -/

/-- **A sound rope shows its characters.** -/
theorem Sound.shows (h : Sound rope) : rope.Shows rope.content where
  counts node hnode := by
    match rope, h with
    | ⟨none⟩, _ => exact nomatch hnode
    | ⟨some root⟩, h =>
      obtain ⟨hcheck, hitems⟩ := h.root.check.of_mem_subtrees hnode
      exact TextNode.Sound.summary_eq ⟨hcheck, fun p hp => h.fits p (hitems hp)⟩
  balanced node hnode := by
    match rope, h with
    | ⟨none⟩, _ => exact nomatch hnode
    | ⟨some root⟩, h =>
      have hcheck := (h.root.check.of_mem_subtrees hnode).1
      refine ⟨hcheck.depth_eq.symm, fun a b hchildren => ?_⟩
      match node, hcheck with
      | JoinTree.leaf _ _ _, _ => exact nomatch hchildren
      | JoinTree.branch _ _ left right, hcheck =>
        obtain ⟨rfl, rfl⟩ := Prod.mk.inj (some.inj hchildren)
        rw [hcheck.1.depth_eq, hcheck.2.1.depth_eq]
        exact ⟨hcheck.2.2.1, hcheck.2.2.2.1⟩
  toText := h.toText_eq
  len := h.len_eq
  byteLen := h.byteLen_eq
  lineCount := h.lineCount_eq
  slice := h.slice_eq
  lineStart := h.lineStart_eq
  lineColumn := h.lineColumn_eq
  lineSpan := h.lineSpan_eq
  find := h.exists_find

/-- A replacement of a sound rope is that of its characters. -/
theorem Sound.replace_eq (h : Sound rope) (r : Span Char) (next : ℕ) :
    match PlainText.replace rope.content r with
    | .error e => rope.replace r.start r.stop r.text next = some (.error e)
    | .ok s => ∃ rope', rope.replace r.start r.stop r.text next = some (.ok rope') ∧ Sound rope' ∧
        rope'.content = s := by
  rw [PlainText.replace]
  by_cases hrange : rope.InvalidRange r.start r.stop
  · rw [if_pos (h.invalidRange_iff.mp hrange)]
    exact if_pos hrange
  have hin := hrange
  rw [h.invalidRange_iff] at hin
  rw [if_neg hin]
  rw [not_or, not_lt, not_lt] at hin
  by_cases hempty : r.start = r.stop ∧ r.text = []
  · refine ⟨rope, by rw [replace, if_neg hrange, if_pos hempty], h, ?_⟩
    rw [hempty.1, hempty.2, splice, append_nil, take_append_drop]
  obtain ⟨rope', hreplace, hsound, hpieces⟩ := h.exists_replace hrange hempty next
  refine ⟨rope', hreplace, hsound, ?_⟩
  rw [content_eq_read, hpieces, content_eq_read]
  refine read_replacedPieces _ hin.1 ?_ _ _
  rw [← content_eq_read]
  exact hin.2

/-- **Replacements in turn** splice in turn. -/
theorem Sound.exists_replaceEach : ∀ (edits : List (Span Char × ℕ)) {rope : Rope}, Sound rope →
    ∃ rope', rope.replaceEach edits =
        some (rope', (PlainText.replaceEach rope.content (edits.map Prod.fst)).2) ∧ Sound rope' ∧
      rope'.content = (PlainText.replaceEach rope.content (edits.map Prod.fst)).1
  | [], rope, h => ⟨rope, rfl, h, rfl⟩
  | (r, next) :: edits, rope, h => by
    have hstep := h.replace_eq r next
    rw [map_cons, PlainText.replaceEach, replaceEach]
    match hplain : PlainText.replace rope.content r with
    | .error e =>
      rw [hplain] at hstep
      obtain ⟨rope', heach, hsound, hcontent⟩ := h.exists_replaceEach edits
      refine ⟨rope', ?_, hsound, hcontent⟩
      dsimp only at hstep ⊢
      rw [hstep, bind_eq_bind, bind_some]
      dsimp only
      rw [heach]
      rfl
    | .ok s =>
      rw [hplain] at hstep
      obtain ⟨rope₁, hreplace, hsound₁, hcontent₁⟩ := hstep
      obtain ⟨rope', heach, hsound, hcontent⟩ := hsound₁.exists_replaceEach edits
      rw [hcontent₁] at heach hcontent
      refine ⟨rope', ?_, hsound, hcontent⟩
      rw [hreplace, bind_eq_bind, bind_some]
      dsimp only
      rw [heach]
      rfl

/-- **Texts are strings**: whatever is made and however it is replaced, no operation panics, a
replacement fails where its range is out of the text, and the rope shows the spliced string. -/
theorem replaceEach_fromText_shows (text : List Char) (next : ℕ) (edits : List (Span Char × ℕ)) :
    ∃ rope, (fromText text next).bind (replaceEach · edits) =
        some (rope, (PlainText.replaceEach text (edits.map Prod.fst)).2) ∧
      rope.Shows (PlainText.replaceEach text (edits.map Prod.fst)).1 := by
  obtain ⟨made, hmade, hsound, hpieces⟩ := exists_fromText text next
  have hcontent : made.content = text := by
    rw [content_eq_read, hpieces, read_fromText]
  obtain ⟨rope, heach, hrope, hshown⟩ := hsound.exists_replaceEach edits
  rw [hcontent] at heach hshown
  refine ⟨rope, ?_, ?_⟩
  · rwa [hmade, bind_some]
  · rw [← hshown]
    exact hrope.shows

/-- The empty string stands everywhere, but a search for it finds nothing. -/
theorem find_empty_pattern : ¬ ∀ (text : List Char) (next : ℕ) (rope : Rope),
    fromText text next = some rope → ∀ (pattern : List Char) (start limit : ℕ), ∃ found,
      rope.find pattern start limit = some found ∧ ∀ n, found = some n ↔
        PlainText.FirstIn text pattern start (PlainText.windowEnd text start limit) n := by
  intro hclaim
  obtain ⟨rope, hmade, -, -⟩ := exists_fromText ['a'] 0
  obtain ⟨found, hfind, hfound⟩ := hclaim ['a'] 0 rope hmade [] 0 0
  rw [find, if_pos (.inl rfl)] at hfind
  obtain rfl := some.inj hfind
  have hfirst : PlainText.FirstIn ['a'] [] 0 (PlainText.windowEnd ['a'] 0 0) 0 :=
    ⟨⟨le_rfl, Nat.zero_le _, nil_prefix⟩, fun m _ => Nat.zero_le m⟩
  cases (hfound 0).mpr hfirst

/-! ## The tree behind a text -/

/-- A rope that holds the pieces of a text. -/
structure Holds (rope : Rope) (t : Text) : Prop where
  sound : Sound rope
  pieces : rope.pieces = t.pieces

/-- **Replacing in the tree** replaces in the list of pieces. -/
theorem Holds.replace {t : Text} (h : rope.Holds t) (start stop : ℕ) (text : List Char)
    (supply : Supply) :
    match t.replace start stop text supply with
    | .error e => rope.replace start stop text (max supply.chunk t.bound) = some (.error e)
    | .ok t' => ∃ rope', rope.replace start stop text (max supply.chunk t.bound) = some (.ok rope') ∧
        rope'.Holds t' := by
  have hlen : rope.len = t.len := by
    rw [h.sound.len_total, h.pieces]
    rfl
  rw [Text.replace]
  by_cases hrange : rope.InvalidRange start stop
  · rw [if_pos (by rwa [InvalidRange, hlen] at hrange)]
    exact if_pos hrange
  rw [if_neg (by rwa [InvalidRange, hlen] at hrange)]
  by_cases hempty : start = stop ∧ text = []
  · rw [if_pos hempty]
    exact ⟨rope, by rw [Rope.replace, if_neg hrange, if_pos hempty], h⟩
  rw [if_neg hempty]
  obtain ⟨rope', hreplace, hsound, hpieces⟩ :=
    h.sound.exists_replace hrange hempty (max supply.chunk t.bound)
  refine ⟨rope', hreplace, hsound, ?_⟩
  rw [hpieces, h.pieces]
  rfl

/-- Replacements in turn, in the tree and in the list of pieces, with the same new chunks. -/
theorem Holds.replaceEach : ∀ (edits : List (Span Char × Supply)) {rope : Rope}
    {t : Text}, rope.Holds t →
    ∃ nexts : List ℕ, nexts.length = edits.length ∧ ∃ rope',
      rope.replaceEach ((edits.map Prod.fst).zip nexts) = some (rope', (t.replaceEach edits).2) ∧
        rope'.Holds (t.replaceEach edits).1
  | [], rope, _, h => ⟨[], rfl, rope, rfl, h⟩
  | (r, supply) :: edits, rope, t, h => by
    have hstep := h.replace r.start r.stop r.text supply
    match htext : t.replace r.start r.stop r.text supply with
    | .error e =>
      rw [htext] at hstep
      obtain ⟨nexts, hlength, rope', heach, hholds⟩ := Holds.replaceEach edits h
      refine ⟨max supply.chunk t.bound :: nexts, congrArg (· + 1) hlength, rope', ?_, ?_⟩
      · rw [map_cons, zip_cons_cons, Rope.replaceEach, hstep, bind_eq_bind, bind_some]
        simp [heach, Text.replaceEach, htext]
      · rwa [Text.replaceEach, htext]
    | .ok t' =>
      rw [htext] at hstep
      obtain ⟨rope₁, hreplace, hholds₁⟩ := hstep
      obtain ⟨nexts, hlength, rope', heach, hholds⟩ := Holds.replaceEach edits hholds₁
      refine ⟨max supply.chunk t.bound :: nexts, congrArg (· + 1) hlength, rope', ?_, ?_⟩
      · rw [map_cons, zip_cons_cons, Rope.replaceEach, hreplace, bind_eq_bind, bind_some]
        simp [heach, Text.replaceEach, htext]
      · rwa [Text.replaceEach, htext]

/-- **The tree refines the list of pieces**: from any text on, replacements in turn fail alike in
both, none panics, and the tree, whose nodes count right and which is balanced, holds the pieces of
the list. -/
theorem replaceEach_fromText_holds (text : List Char) (supply : Supply)
    (edits : List (Span Char × Supply)) :
    ∃ nexts : List ℕ, nexts.length = edits.length ∧ ∃ rope,
      (fromText text supply.chunk).bind (replaceEach · ((edits.map Prod.fst).zip nexts)) =
        some (rope, ((Text.fromText text supply).replaceEach edits).2) ∧
      rope.Holds ((Text.fromText text supply).replaceEach edits).1 := by
  obtain ⟨made, hmade, hsound, hpieces⟩ := exists_fromText text supply.chunk
  have hholds : made.Holds (Text.fromText text supply) := ⟨hsound, hpieces⟩
  rw [hmade]
  exact hholds.replaceEach edits

/-- **The height fits a byte**: a text that a machine can address has a low tree. -/
theorem Sound.height_lt (h : Sound rope) (hlen : rope.content.length < 2 ^ 64) {root : TextNode}
    (hroot : rope.root = some root) : root.height < 2 ^ 8 := by
  have hcheck := h.check root hroot
  have hitems : root.items = rope.pieces := by
    rw [pieces, hroot]
    rfl
  have hpieces : rope.pieces.length ≤ rope.content.length := by
    rw [← h.len_eq, h.len_total, Pieces.total, ← length_map Piece.len]
    refine length_le_sum_of_one_le _ fun i hi => ?_
    obtain ⟨p, -, rfl⟩ := mem_map.mp hi
    exact p.len_pos
  have hpow := hcheck.two_pow_le
  rw [hitems] at hpow
  have hlow := (Nat.pow_lt_pow_iff_right (by decide)).mp ((hpow.trans hpieces).trans_lt hlen)
  omega

theorem height_lt_fromText :
    ∃ rope root, fromText ['a'] 0 = some rope ∧ rope.root = some root ∧ root.height < 2 ^ 8 := by
  obtain ⟨rope, hmade, hsound, -⟩ := exists_fromText ['a'] 0
  have hsmall : (fromText ['a'] 0).all (fun rope => rope.root.isSome && rope.content.length < 2) =
    true := by
    decide +kernel
  rw [hmade, all_some, Bool.and_eq_true, decide_eq_true_iff] at hsmall
  obtain ⟨root, hroot⟩ := isSome_iff_exists.mp hsmall.1
  exact ⟨rope, root, hmade, hroot, hsound.height_lt (hsmall.2.trans (by decide)) hroot⟩

end Rope

end Mica
