import Mica.Buffer.Rope

/-!
# Buffer/RopeTree — what the operations on the nodes of a text compute

The caches of chunks and nodes are read where the source reads them, and agree with the characters
of the pieces below.  Splitting and joining keep the caches and the balance, and act on the list of
pieces.
-/

open Utf8 List JoinTree

namespace Mica

/-! ## Chunks -/

section Chunk

/-- Every so many entries of an enumeration. -/
theorem getElem?_filter_zipIdx {β : Type} {m : ℕ} (hm : 0 < m) : ∀ (l : List β) (i r k : ℕ), r < m →
    (i + r) % m = 0 →
    ((l.zipIdx i).filter fun entry => entry.2 % m = 0)[k]? = (l.zipIdx i)[r + m * k]?
  | [], _, _, _, _, _ => rfl
  | a :: l, i, r, k, hr, hi => by
    rw [zipIdx_cons]
    by_cases hhead : i % m = 0
    · have hzero : r = 0 := by
        rwa [Nat.add_mod, hhead, Nat.zero_add, Nat.mod_mod, Nat.mod_eq_of_lt hr] at hi
      rw [filter_cons_of_pos (by simpa using hhead), hzero, Nat.zero_add]
      match k with
      | 0 => rfl
      | k + 1 =>
        have hnext : (i + 1 + (m - 1)) % m = 0 := by
          rw [show i + 1 + (m - 1) = i + m by omega, Nat.add_mod_right, hhead]
        rw [getElem?_cons_succ, getElem?_filter_zipIdx hm l (i + 1) (m - 1) k (by omega) hnext,
          show m * (k + 1) = m - 1 + m * k + 1 by rw [Nat.mul_succ]; omega, getElem?_cons_succ]
    · have hpos : 0 < r := by
        rcases Nat.eq_zero_or_pos r with rfl | hpos
        · exact absurd hi hhead
        · exact hpos
      rw [filter_cons_of_neg (by simpa using hhead),
        getElem?_filter_zipIdx hm l (i + 1) (r - 1) k (by omega)
          (by rwa [show i + 1 + (r - 1) = i + r by omega]),
        show r + m * k = r - 1 + m * k + 1 by omega, getElem?_cons_succ]

namespace Chunk

variable {chunk : Chunk} {k : ℕ}

/-- The text of a chunk is no longer than chunks may be. -/
def Fits (chunk : Chunk) : Prop := byteLen chunk.text ≤ chunkBytes

theorem scalars_eq (chunk : Chunk) : chunk.scalars = chunk.text.length := length_charIndices 0 _

/-- The offsets of a chunk are within `u16`. -/
theorem Fits.byteLen_take_lt (h : chunk.Fits) (k : ℕ) : byteLen (chunk.text.take k) < 2 ^ 16 :=
  ((byteLen_take_le _ k).trans h).trans_lt (by decide)

theorem Fits.getElem?_samples (h : chunk.Fits) (k : ℕ) (hk : scalarSample * k < chunk.text.length) :
    chunk.samples[k]? = some (byteLen (chunk.text.take (scalarSample * k))) := by
  have hentry := getElem?_filter_zipIdx (m := scalarSample) (by decide)
    (charIndices 0 chunk.text) 0 0 k
    (by decide) rfl
  rw [Nat.zero_add] at hentry
  unfold samples
  rw [getElem?_map, hentry, getElem?_zipIdx, getElem?_charIndices,
    getElem?_eq_getElem hk]
  simp only [Option.map_some, Nat.zero_add, Nat.mod_eq_of_lt (h.byteLen_take_lt _)]

/-- **The byte offset of a character** is that of the characters before it. -/
theorem Fits.byteOffset_eq (h : chunk.Fits) (hk : k ≤ chunk.text.length) :
    chunk.byteOffset k = some (byteLen (chunk.text.take k)) := by
  unfold byteOffset
  rw [scalars_eq]
  split
  · next hend => rw [hend, take_length]
  rename_i hne
  have hdiv := Nat.div_add_mod k scalarSample
  have hlt : k < chunk.text.length := lt_of_le_of_ne hk hne
  have hsample : scalarSample * (k / scalarSample) < chunk.text.length := by omega
  rw [h.getElem?_samples _ hsample, Option.bind_eq_bind, Option.bind_some, suffixFrom_take,
    Option.bind_eq_bind, Option.bind_some, getElem?_charIndices, getElem?_drop, hdiv,
    getElem?_eq_getElem hlt]
  have hadd := byteLen_take_add chunk.text (Nat.le.intro hdiv)
  have hrest : k - scalarSample * (k / scalarSample) = k % scalarSample := by omega
  rw [hrest] at hadd
  rw [Option.map_some, Option.bind_eq_bind, Option.bind_some, hadd, Nat.zero_add]

theorem newlines_go (s : List Char) : ∀ offset i : ℕ, i + s.length ≤ 2 ^ 16 →
    (((charIndices offset s).zipIdx i).filter fun entry => entry.1.2 = '\n').map
        (fun entry => entry.2 % 2 ^ 16) = (Lines.positions '\n' s).map (· + i) := by
  induction s with
  | nil => exact fun _ _ _ => rfl
  | cons c s ih =>
    intro offset i hle
    rw [length_cons] at hle
    have hrest := ih (offset + c.utf8Size) (i + 1) (by omega)
    have hshift : (Lines.positions '\n' s).map (· + (i + 1)) =
        ((Lines.positions '\n' s).map (· + 1)).map (· + i) := by
      rw [map_map]
      exact map_congr_left fun n _ => by simp only [Function.comp_apply]; omega
    rw [charIndices, zipIdx_cons, Lines.positions]
    split
    · next hnewline =>
      rw [filter_cons_of_pos (by simpa using hnewline), map_cons, hrest, hshift,
        map_cons, Nat.zero_add, Nat.mod_eq_of_lt (by omega)]
    · next hother =>
      rw [filter_cons_of_neg (by simpa using hother), hrest, hshift]

theorem Fits.newlines_eq (h : chunk.Fits) : chunk.newlines = Lines.positions '\n' chunk.text := by
  have hlen : chunk.text.length ≤ 2 ^ 16 :=
    ((length_le_byteLen _).trans h).trans (by decide)
  unfold newlines
  rw [newlines_go chunk.text 0 0 (by omega)]
  simp

theorem Fits.partitionPoint_newlines (h : chunk.Fits) (k : ℕ) :
    partitionPoint chunk.newlines k = (chunk.text.take k).count '\n' := by
  rw [partitionPoint, h.newlines_eq, Lines.takeWhile_positions, Lines.length_positions]

end Chunk

end Chunk

/-! ## Pieces -/

namespace Piece

variable {p : Piece} {start stop k : ℕ}

theorem length_text (p : Piece) : p.text.length = p.len := by
  rw [text_eq_read, length_read]

theorem take_stop (p : Piece) : p.chunk.text.take p.stop = p.chunk.text.take p.start ++ p.text := by
  rw [text, len, ← take_add, Nat.add_sub_cancel' p.start_lt.le]

theorem textRange_eq (h : p.chunk.Fits) (hle : start ≤ stop) (hstop : stop ≤ p.len) :
    p.textRange start stop = some ((p.text.take stop).drop start) := by
  have hfits := p.stop_le
  have hlt := p.start_lt
  have hlen : p.len = p.stop - p.start := rfl
  unfold textRange
  rw [h.byteOffset_eq (by omega), h.byteOffset_eq (by omega)]
  change slice _ _ _ = _
  rw [slice_take _ (by omega), text, take_take, min_eq_left hstop, drop_take, drop_drop]
  congr 2
  omega

theorem exists_ofRange (chunk : Chunk) (hlt : start < stop) (hle : stop ≤ chunk.text.length) :
    ofRange chunk start stop = some ⟨chunk, start, stop, hlt, hle⟩ := dif_pos ⟨hlt, hle⟩

theorem split_eq (h : 0 < k ∧ k < p.len) : p.split k = some (p.left k h, p.right k h) := by
  have hstop := p.stop_le
  have hlt := h.2
  unfold len at hlt
  unfold split
  dsimp only
  rw [exists_ofRange p.chunk (by omega) (by omega), exists_ofRange p.chunk (by omega) hstop]
  rfl

/-- What a leaf counts. -/
def counts (p : Piece) : TextCounts := ⟨p.text.length, byteLen p.text, p.text.count '\n'⟩

theorem newlineRange_fst (h : p.chunk.Fits) :
    p.newlineRange.1 = (p.chunk.text.take p.start).count '\n' := h.partitionPoint_newlines _

theorem newlineRange_snd (h : p.chunk.Fits) :
    p.newlineRange.2 = p.newlineRange.1 + p.text.count '\n' := by
  have hstop := h.partitionPoint_newlines p.stop
  rw [take_stop, count_append] at hstop
  rw [newlineRange_fst h, ← hstop]
  rfl

end Piece

/-! ## Splitting lists of pieces -/

namespace Pieces

/-- The characters of a list of pieces. -/
def total (ps : List Piece) : ℕ := (ps.map Piece.len).sum

theorem total_append (ps qs : List Piece) : total (ps ++ qs) = total ps + total qs := by
  rw [total, map_append, sum_append]
  rfl

theorem split_zero : ∀ ps : List Piece, split ps 0 = ([], ps)
  | [] => rfl
  | p :: ps => by
    rw [split, dif_neg (by omega), if_pos rfl]

theorem split_cons_of_le {p : Piece} {ps : List Piece} {k : ℕ} (h : p.len ≤ k) :
    split (p :: ps) k = (p :: (split ps (k - p.len)).1, (split ps (k - p.len)).2) := by
  have hpos := p.len_pos
  rw [split, dif_neg (by omega), if_neg (by omega)]

/-- A position in the second list. -/
theorem split_append_of_le : ∀ {ps qs : List Piece} {k : ℕ}, total ps ≤ k →
    split (ps ++ qs) k = (ps ++ (split qs (k - total ps)).1, (split qs (k - total ps)).2)
  | [], _, _, _ => rfl
  | p :: ps, qs, k, h => by
    have hcons : total (p :: ps) = p.len + total ps := sum_cons
    rw [cons_append, split_cons_of_le (by omega), split_append_of_le (by omega), hcons,
      Nat.sub_sub]
    rfl

/-- A position in the first list. -/
theorem split_append_of_lt : ∀ {ps qs : List Piece} {k : ℕ}, k < total ps →
    split (ps ++ qs) k = ((split ps k).1, (split ps k).2 ++ qs)
  | [], _, k, h => absurd h (Nat.not_lt_zero k)
  | p :: ps, qs, k, h => by
    have hcons : total (p :: ps) = p.len + total ps := sum_cons
    rw [cons_append, split, split]
    split
    · rfl
    · split
      · rfl
      · rw [split_append_of_lt (by omega)]

theorem split_total (ps : List Piece) : split ps (total ps) = (ps, []) := by
  have h : split (ps ++ []) (total ps) = _ := split_append_of_le le_rfl
  rw [append_nil] at h
  rw [h]
  simp [split]

end Pieces

/-! ## Nodes -/

namespace TextNode

theorem leaf_eq {p : Piece} (h : p.chunk.Fits) : leaf p = some (JoinTree.leaf p.counts 1 p) := by
  unfold leaf
  rw [Piece.textRange_eq h (Nat.zero_le _) le_rfl, Piece.newlineRange_snd h, Nat.add_sub_cancel_left]
  have hall : (p.text.take p.len).drop 0 = p.text := by
    rw [drop_zero, ← p.length_text, take_length]
  rw [hall, Option.bind_eq_bind, Option.bind_some, Piece.counts, p.length_text]

/-- A node whose caches and balance are right and whose chunks fit. -/
structure Sound (node : TextNode) : Prop where
  check : node.Check Piece.counts
  fits : ∀ p ∈ node.items, p.chunk.Fits

/-- The characters below a node. -/
def content (node : TextNode) : List Char := node.items.flatMap Piece.text

theorem content_leaf (s : TextCounts) (h : ℕ) (p : Piece) : content (JoinTree.leaf s h p) = p.text :=
  flatMap_singleton _ _

theorem content_branch (s : TextCounts) (h : ℕ) (left right : TextNode) :
    content (JoinTree.branch s h left right) = content left ++ content right := flatMap_append

variable {node : TextNode} {start stop k : ℕ}

theorem Sound.left {s : TextCounts} {h : ℕ} {left right : TextNode}
    (hnode : Sound (JoinTree.branch s h left right)) : Sound left :=
  ⟨hnode.check.1, fun p hp => hnode.fits p (mem_append_left _ hp)⟩

theorem Sound.right {s : TextCounts} {h : ℕ} {left right : TextNode}
    (hnode : Sound (JoinTree.branch s h left right)) : Sound right :=
  ⟨hnode.check.2.1, fun p hp => hnode.fits p (mem_append_right _ hp)⟩

/-- **The counts of a node** are those of the characters below it. -/
theorem Sound.summary_eq (h : Sound node) :
    node.summary = ⟨(content node).length, byteLen (content node), (content node).count '\n'⟩ := by
  refine TextCounts.ext ?_ ?_ ?_
  · rw [h.check.summary_eq TextCounts.scalars fun _ _ => rfl, content, length_flatMap]
    rfl
  · rw [h.check.summary_eq TextCounts.bytes fun _ _ => rfl, content]
    induction node.items with
    | nil => rfl
    | cons p ps ih => rw [map_cons, sum_cons, ih, flatMap_cons, byteLen_append]; rfl
  · rw [h.check.summary_eq TextCounts.newlines fun _ _ => rfl, content, count_flatMap]
    rfl

theorem Sound.scalars_eq (h : Sound node) : scalars node = (content node).length :=
  congrArg TextCounts.scalars h.summary_eq

theorem Sound.newlines_eq (h : Sound node) : newlines node = (content node).count '\n' :=
  congrArg TextCounts.newlines h.summary_eq

theorem Sound.scalars_total (h : Sound node) : scalars node = Pieces.total node.items := by
  rw [h.scalars_eq, content, length_flatMap, Pieces.total]
  exact congrArg List.sum (map_congr_left fun p _ => p.length_text)

/-- A piece of a chunk that fits is a sound leaf. -/
theorem exists_leaf {p : Piece} (h : p.chunk.Fits) :
    ∃ node, leaf p = some node ∧ node.Check Piece.counts ∧ node.items = [p] :=
  ⟨_, leaf_eq h, ⟨rfl, rfl⟩, rfl⟩

/-- **Splitting** keeps the trees balanced, and splits the list of pieces. -/
theorem Sound.exists_split (node : TextNode) {k : ℕ} (hnode : Sound node) (hk : k ≤ scalars node) :
    ∃ left right, split node k = some (left, right) ∧ JoinTree.RootCheck Piece.counts left ∧
      JoinTree.RootCheck Piece.counts right ∧
      (JoinTree.rootItems left, JoinTree.rootItems right) = Pieces.split node.items k := by
  have hlen := hnode.scalars_total
  rw [split.eq_def]
  split
  · next hzero =>
    refine ⟨none, _, rfl, rootCheck_none, rootCheck_some hnode.check, ?_⟩
    rw [hzero, Pieces.split_zero]
    rfl
  rename_i hpos
  split
  · next hend =>
    refine ⟨_, none, rfl, rootCheck_some hnode.check, rootCheck_none, ?_⟩
    rw [hend, hlen, Pieces.split_total]
    rfl
  rename_i hinside
  match node, hnode with
  | JoinTree.leaf s h piece, hnode =>
    have hfits := hnode.fits piece mem_cons_self
    have htotal : Pieces.total (JoinTree.items (JoinTree.leaf s h piece)) = piece.len :=
      sum_singleton
    rw [htotal] at hlen
    have hk' : 0 < k ∧ k < piece.len := by omega
    obtain ⟨a, ha, hacheck, haitems⟩ := exists_leaf (p := piece.left k hk') hfits
    obtain ⟨b, hb, hbcheck, hbitems⟩ := exists_leaf (p := piece.right k hk') hfits
    refine ⟨some a, some b, ?_, rootCheck_some hacheck, rootCheck_some hbcheck, ?_⟩
    · dsimp only
      rw [Piece.split_eq hk', Option.bind_eq_bind, Option.bind_some]
      dsimp only
      rw [ha, hb]
      rfl
    · rw [rootItems_some, rootItems_some, haitems, hbitems, JoinTree.items,
        Pieces.split, dif_pos hk']
  | JoinTree.branch s h left right, hnode =>
    have hleft := hnode.left.scalars_total
    dsimp only
    split
    · next hlt =>
      obtain ⟨a, b, hsplit, ha, hb, hitems⟩ := exists_split left hnode.left hlt.le
      obtain ⟨joined, hjoin, hcheck, hjoined⟩ :=
        exists_joinRoots hb (rootCheck_some hnode.right.check)
      refine ⟨a, joined, ?_, ha, hcheck, ?_⟩
      · rw [hsplit, Option.bind_eq_bind, Option.bind_some]
        dsimp only
        rw [hjoin]
        rfl
      · rw [JoinTree.items, Pieces.split_append_of_lt (hleft ▸ hlt), ← hitems, hjoined]
        rfl
    · next hge =>
      have hall : scalars (JoinTree.branch s h left right) = scalars left + scalars right := by
        rw [hlen, hleft, hnode.right.scalars_total, JoinTree.items, Pieces.total_append]
      obtain ⟨a, b, hsplit, ha, hb, hitems⟩ := exists_split right hnode.right (k := k - scalars left)
        (by omega)
      obtain ⟨joined, hjoin, hcheck, hjoined⟩ :=
        exists_joinRoots (rootCheck_some hnode.left.check) ha
      refine ⟨joined, b, ?_, hcheck, hb, ?_⟩
      · rw [hsplit, Option.bind_eq_bind, Option.bind_some]
        dsimp only
        rw [hjoin]
        rfl
      · rw [JoinTree.items, Pieces.split_append_of_le (by omega), ← hleft, ← hitems, hjoined]
        rfl

/-! ### Visiting -/

variable {S : Type} {visit : S → List Char → S × Bool}

/-- A visitor for which the parts of a text are as the whole. -/
structure Sequential (visit : S → List Char → S × Bool) : Prop where
  nil : ∀ s, visit s [] = (s, true)
  append : ∀ s text text', visit s (text ++ text') =
    if (visit s text).2 then visit (visit s text).1 text' else visit s text

/-- A range of two texts. -/
theorem range_append (text text' : List Char) (start stop : ℕ) :
    ((text ++ text').take stop).drop start = (text.take stop).drop start ++
      (text'.take (stop - text.length)).drop (start - text.length) := by
  rw [take_append, drop_append, length_take]
  rcases le_total stop text.length with h | h
  · rw [Nat.sub_eq_zero_of_le h]
    simp
  · rw [min_eq_right h]

/-- **Visiting a range** visits its characters. -/
theorem Sound.visitRange_eq (hvisit : Sequential visit) (node : TextNode) {start stop : ℕ} {s : S}
    (hnode : Sound node) (hstop : stop ≤ scalars node) :
    visitRange visit node start stop s = some (visit s (((content node).take stop).drop start)) := by
  rw [visitRange.eq_def]
  split
  · next hempty =>
    have hnone : ((content node).take stop).drop start = [] := by
      rw [drop_eq_nil_iff]
      exact (length_take_le _ _).trans hempty
    rw [hnone, hvisit.nil]
  rename_i hrange
  match node, hnode with
  | JoinTree.leaf _ _ piece, hnode =>
    have hlen := hnode.scalars_eq
    rw [content_leaf, piece.length_text] at hlen
    dsimp only
    rw [content_leaf, Piece.textRange_eq (hnode.fits piece mem_cons_self) (by omega) (by omega)]
    rfl
  | JoinTree.branch _ h left right, hnode =>
    have hleft := hnode.left.scalars_eq
    have hall := hnode.scalars_eq
    rw [content_branch, length_append, ← hleft, ← hnode.right.scalars_eq] at hall
    -- the part in the left tree is visited, or it is empty
    have hfirst : (if start < scalars left then visitRange visit left start (min stop (scalars left)) s
        else some (s, true)) = some (visit s (((content left).take stop).drop start)) := by
      split
      · next hlt =>
        rw [visitRange_eq hvisit left hnode.left (min_le_right _ _)]
        congr 3
        rw [hleft, ← take_eq_take_min]
      rename_i hge
      have hnone : ((content left).take stop).drop start = [] := by
        rw [drop_eq_nil_iff]
        exact (length_take_le' _ _).trans (by omega)
      rw [hnone, hvisit.nil]
    dsimp only
    rw [hfirst, content_branch, range_append, hvisit.append, ← hleft, Option.bind_eq_bind,
      Option.bind_some]
    rcases hmore : visit s (((content left).take stop).drop start) with ⟨s', more⟩
    match more with
    | false => rfl
    | true =>
      dsimp only
      rw [Bool.not_true, if_neg Bool.false_ne_true, if_pos rfl]
      split
      · exact visitRange_eq hvisit right hnode.right (by omega)
      · next hnone =>
        rw [Nat.sub_eq_zero_of_le (not_lt.mp hnone), take_zero, drop_nil, hvisit.nil]

/-- Appending is a visitor. -/
theorem sequential_append : Sequential fun (out : List Char) text => (out ++ text, true) where
  nil out := by rw [append_nil]
  append out text text' := by rw [if_pos rfl, append_assoc]

theorem sequential_visit (word : List Char) (prefixes : List ℕ) :
    Sequential (Borders.visit word prefixes) where
  nil _ := rfl
  append s text text' := Borders.visit_append text text' s

theorem Sound.appendRange_eq (hnode : Sound node) (hstop : stop ≤ scalars node) (out : List Char) :
    appendRange node start stop out = some (out ++ ((content node).take stop).drop start) := by
  rw [appendRange, hnode.visitRange_eq sequential_append _ hstop]
  rfl

/-! ### Newlines -/

/-- **The place of a newline.** -/
theorem Sound.newlinePosition_eq : ∀ {node : TextNode} {i : ℕ}, Sound node → i < newlines node →
    newlinePosition node i = (Lines.positions '\n' (content node))[i]?
  | JoinTree.leaf _ _ piece, i, hnode, hi => by
    have hfits := hnode.fits piece mem_cons_self
    have hlines := Lines.length_positions '\n' piece.text
    rw [hnode.newlines_eq, content_leaf, ← hlines] at hi
    -- the piece stands in the chunk between what is before it and what is after it
    have hchunk : piece.chunk.text =
        piece.chunk.text.take piece.start ++ (piece.text ++ piece.chunk.text.drop piece.stop) := by
      rw [← append_assoc, ← piece.take_stop, take_append_drop]
    have hbefore : (piece.chunk.text.take piece.start).length = piece.start := by
      rw [length_take, min_eq_left (piece.start_lt.le.trans piece.stop_le)]
    have hentry : piece.chunk.newlines[piece.newlineRange.1 + i]? =
        some ((Lines.positions '\n' piece.text)[i] + piece.start) := by
      rw [hfits.newlines_eq, hchunk, Lines.positions_append, Piece.newlineRange_fst hfits,
        ← Lines.length_positions, getElem?_append_right (Nat.le_add_right _ _),
        Nat.add_sub_cancel_left, getElem?_map, Lines.positions_append,
        getElem?_append_left hi, getElem?_eq_getElem hi, hbefore]
      rfl
    rw [newlinePosition, hentry, content_leaf, getElem?_eq_getElem hi, Option.bind_eq_bind,
      Option.bind_some, Nat.add_sub_cancel]
  | JoinTree.branch _ _ left right, i, hnode, hi => by
    have hleft := hnode.left.newlines_eq
    have hall := hnode.newlines_eq
    rw [content_branch, count_append, ← hleft, ← hnode.right.newlines_eq] at hall
    rw [newlinePosition, content_branch, Lines.positions_append]
    split
    · next hlt =>
      rw [hnode.left.newlinePosition_eq hlt, getElem?_append_left]
      rwa [Lines.length_positions, ← hleft]
    rename_i hge
    rw [hnode.right.newlinePosition_eq (by omega), getElem?_append_right, getElem?_map,
      Lines.length_positions, ← hleft, hnode.left.scalars_eq]
    · cases (Lines.positions '\n' (content right))[i - newlines left]? with
      | none => rfl
      | some position => exact congrArg some (Nat.add_comm _ _)
    · rw [Lines.length_positions, ← hleft]
      omega

/-- **The newlines before a position.** -/
theorem Sound.newlinesBefore_eq : ∀ {node : TextNode} {position : ℕ}, Sound node →
    position ≤ scalars node → newlinesBefore node position = ((content node).take position).count '\n'
  | JoinTree.leaf _ _ piece, position, hnode, hle => by
    have hfits := hnode.fits piece mem_cons_self
    rw [hnode.scalars_eq, content_leaf, piece.length_text] at hle
    have hpart : piece.text.take position = (piece.chunk.text.drop piece.start).take position := by
      rw [Piece.text, take_take, min_eq_left hle]
    rw [newlinesBefore, hfits.partitionPoint_newlines, Piece.newlineRange_fst hfits,
      content_leaf, hpart,
      take_add, count_append, Nat.add_sub_cancel_left]
  | JoinTree.branch _ _ left right, position, hnode, hle => by
    have hleft := hnode.left.scalars_eq
    have hall := hnode.scalars_eq
    rw [content_branch, length_append, ← hleft, ← hnode.right.scalars_eq] at hall
    rw [newlinesBefore, content_branch, take_append, count_append, ← hleft]
    split
    · next hin =>
      rw [hnode.left.newlinesBefore_eq hin, Nat.sub_eq_zero_of_le hin]
      rfl
    · next hout =>
      rw [hnode.right.newlinesBefore_eq (by omega), hnode.left.newlines_eq,
        take_of_length_le (l := content left) (hleft ▸ (not_le.mp hout).le)]

end TextNode

end Mica
