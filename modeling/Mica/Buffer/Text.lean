import Mica.Kernel.Metadata
import Mica.Lib.SpanEdit

/-!
# Buffer/Text — immutable text that remembers where it comes from

A text is a sequence of pieces, and a piece is a range of a chunk.  Edits share the chunks of the text
they start from, so that a chunk tells which text a piece was taken from.  The balanced tree that holds
the pieces stands in `Buffer/Rope`; provenance does not depend on its shape.
-/

open SpanEdit List

namespace Mica

/-- A chunk; its number stands for its address. -/
structure Chunk where
  id : ℕ
  text : List Char
  deriving DecidableEq

/-- A part of a chunk that is not empty. -/
structure Piece where
  chunk : Chunk
  start : ℕ
  stop : ℕ
  start_lt : start < stop
  stop_le : stop ≤ chunk.text.length
  deriving DecidableEq

namespace Piece

def len (p : Piece) : ℕ := p.stop - p.start

def text (p : Piece) : List Char := (p.chunk.text.drop p.start).take p.len

theorem len_pos (p : Piece) : 0 < p.len := Nat.sub_pos_of_lt p.start_lt

/-- `Piece::split`: the part before a position. -/
def left (p : Piece) (k : ℕ) (h : 0 < k ∧ k < p.len) : Piece where
  chunk := p.chunk
  start := p.start
  stop := p.start + k
  start_lt := Nat.lt_add_of_pos_right h.1
  stop_le := by
    have := p.stop_le
    have := h.2
    unfold len at this
    omega

/-- `Piece::split`: the part after a position. -/
def right (p : Piece) (k : ℕ) (h : 0 < k ∧ k < p.len) : Piece where
  chunk := p.chunk
  start := p.start + k
  stop := p.stop
  start_lt := by
    have := h.2
    unfold len at this
    omega
  stop_le := p.stop_le

/-- One item for every position of a piece. -/
def read {β : Type} (g : Chunk → ℕ → β) (p : Piece) : List β :=
  (List.range' p.start p.len).map (g p.chunk)

@[simp] theorem length_read {β : Type} (g : Chunk → ℕ → β) (p : Piece) :
    (p.read g).length = p.len := by
  simp [read]

theorem read_split {β : Type} (g : Chunk → ℕ → β) (p : Piece) {k : ℕ} (h : 0 < k ∧ k < p.len) :
    p.read g = (p.left k h).read g ++ (p.right k h).read g := by
  have hright : (p.right k h).len = p.len - k := by
    dsimp only [len, right]
    omega
  have hleft : (p.left k h).len = k := by
    dsimp only [len, left]
    omega
  unfold read
  rw [hleft, hright]
  dsimp only [left, right]
  rw [← map_append, range'_append_1, Nat.add_sub_cancel' h.2.le]

/-- A character of a chunk. -/
def charAt (chunk : Chunk) (k : ℕ) : Char := chunk.text.getD k ' '

theorem text_eq_read (p : Piece) : p.text = p.read charAt := by
  have hle := p.stop_le
  refine ext_getElem? fun i => ?_
  unfold text read
  rw [getElem?_take, getElem?_map]
  by_cases hi : i < p.len
  · have hin : p.start + i < p.chunk.text.length := by
      unfold len at hi
      omega
    rw [if_pos hi, getElem?_drop, getElem?_range' hi, Option.map_some]
    simp [charAt, hin]
  · rw [if_neg hi, getElem?_eq_none (by simpa using hi)]
    rfl

end Piece

/-! ## Lists of pieces -/

namespace Pieces

variable {β : Type} {g : Chunk → ℕ → β} {ps qs : List Piece} {p q : Piece}

/-- The items of all pieces. -/
def read (g : Chunk → ℕ → β) (ps : List Piece) : List β := ps.flatMap (Piece.read g)

/-- Pieces of one chunk stand in its order. -/
def InOrder (p q : Piece) : Prop := p.chunk.id = q.chunk.id → p.chunk = q.chunk ∧ p.stop ≤ q.start

/-- `split`: the pieces before a position and those after it. -/
def split : List Piece → ℕ → List Piece × List Piece
  | [], _ => ([], [])
  | p :: ps, k =>
    if h : 0 < k ∧ k < p.len then ([p.left k h], p.right k h :: ps)
    else if k = 0 then ([], p :: ps)
    else
      let (left, right) := split ps (k - p.len)
      (p :: left, right)

theorem read_append (g : Chunk → ℕ → β) (ps qs : List Piece) :
    read g (ps ++ qs) = read g ps ++ read g qs := flatMap_append

theorem read_cons (g : Chunk → ℕ → β) (p : Piece) (ps : List Piece) :
    read g (p :: ps) = p.read g ++ read g ps := flatMap_cons

/-- The items split where the pieces do. -/
theorem read_split : ∀ (ps : List Piece) {k : ℕ}, k ≤ (read g ps).length →
    read g (split ps k).1 = (read g ps).take k ∧ read g (split ps k).2 = (read g ps).drop k
  | [], k, _ => by simp [split, read]
  | p :: ps, k, hk => by
    have hlen := p.length_read g
    rw [read_cons, length_append, hlen] at hk
    unfold split
    split
    · next h =>
      rw [read_cons, read_cons, p.read_split g h]
      have hleft : ((p.left k h).read g).length = k := by
        rw [Piece.length_read]
        dsimp only [Piece.len, Piece.left]
        omega
      refine ⟨?_, ?_⟩
      · rw [append_assoc, take_left' hleft]
        simp [read]
      · rw [append_assoc, drop_left' hleft]
        rfl
    · next h =>
      split
      · next hzero =>
        rw [hzero]
        exact ⟨rfl, rfl⟩
      rename_i hpos
      have hge : p.len ≤ k := by omega
      obtain ⟨hleft, hright⟩ := read_split ps (k := k - p.len) (by omega)
      have htake : (p.read g).take k = p.read g := take_of_length_le (by omega)
      have hdrop : (p.read g).drop k = [] := drop_of_length_le (by omega)
      rw [read_cons, read_cons, hleft, hright, take_append, drop_append, hlen, htake, hdrop,
        nil_append]
      exact ⟨rfl, rfl⟩

/-- Splitting keeps the order of the pieces, also after others. -/
theorem inOrder_split : ∀ (ps qs : List Piece) (k : ℕ), (qs ++ ps).Pairwise InOrder →
    (qs ++ ((split ps k).1 ++ (split ps k).2)).Pairwise InOrder
  | [], qs, k, h => h
  | p :: ps, qs, k, h => by
    unfold split
    split
    · next hk =>
      obtain ⟨hqs, hps, hcross⟩ := pairwise_append.mp h
      obtain ⟨hp, hrest⟩ := pairwise_cons.mp hps
      have hlen := hk.2
      unfold Piece.len at hlen
      refine pairwise_append.mpr ⟨hqs, ?_, fun q hq x hx => ?_⟩
      · refine pairwise_cons.mpr ⟨fun x hx => ?_, pairwise_cons.mpr ⟨fun x hx => ?_, hrest⟩⟩
        · rcases mem_cons.mp hx with rfl | hx
          · exact fun _ => ⟨rfl, le_rfl⟩
          intro hid
          obtain ⟨hchunk, hle⟩ := hp x hx hid
          refine ⟨hchunk, ?_⟩
          dsimp only [Piece.left]
          omega
        · exact hp x hx
      · have hqp := hcross q hq p mem_cons_self
        rcases mem_cons.mp hx with rfl | hx
        · exact hqp
        rcases mem_cons.mp hx with rfl | hx
        · intro hid
          obtain ⟨hchunk, hle⟩ := hqp hid
          refine ⟨hchunk, ?_⟩
          dsimp only [Piece.right]
          omega
        · exact hcross q hq x (mem_cons_of_mem p hx)
    · split
      · exact h
      · have hassoc := inOrder_split ps (qs ++ [p]) (k - p.len) (by simpa using h)
        simpa using hassoc

/-- A piece that is a part of another. -/
def Within (p q : Piece) : Prop := p.chunk = q.chunk ∧ q.start ≤ p.start ∧ p.stop ≤ q.stop

theorem Within.refl (p : Piece) : Within p p := ⟨rfl, le_rfl, le_rfl⟩

theorem Within.trans {r : Piece} (h : Within p q) (h' : Within q r) : Within p r :=
  ⟨h.1.trans h'.1, h'.2.1.trans h.2.1, h.2.2.trans h'.2.2⟩

theorem exists_within_of_mem_split : ∀ {ps : List Piece} {k : ℕ} {x : Piece},
    x ∈ (split ps k).1 ∨ x ∈ (split ps k).2 → ∃ p ∈ ps, Within x p
  | [], k, x, h => by
    rcases h with h | h
    · cases h
    · cases h
  | p :: ps, k, x, h => by
    unfold split at h
    split at h
    · next hk =>
      have hlt := hk.2
      unfold Piece.len at hlt
      rcases h with h | h
      · rw [mem_singleton.mp h]
        refine ⟨p, mem_cons_self, rfl, le_rfl, ?_⟩
        dsimp only [Piece.left]
        omega
      · rcases mem_cons.mp h with rfl | h
        · exact ⟨p, mem_cons_self, rfl, Nat.le_add_right _ _, le_rfl⟩
        · exact ⟨x, mem_cons_of_mem p h, Within.refl x⟩
    · split at h
      · rcases h with h | h
        · cases h
        · exact ⟨x, h, Within.refl x⟩
      rcases h with h | h
      · rcases mem_cons.mp h with rfl | h
        · exact ⟨x, mem_cons_self, Within.refl x⟩
        · obtain ⟨q, hq, hwithin⟩ := exists_within_of_mem_split (.inl h)
          exact ⟨q, mem_cons_of_mem p hq, hwithin⟩
      · obtain ⟨q, hq, hwithin⟩ := exists_within_of_mem_split (.inr h)
        exact ⟨q, mem_cons_of_mem p hq, hwithin⟩

theorem mem_split {k : ℕ} {x : Piece} (h : x ∈ (split ps k).1 ∨ x ∈ (split ps k).2) :
    ∃ p ∈ ps, x.chunk = p.chunk := by
  obtain ⟨p, hp, hwithin⟩ := exists_within_of_mem_split h
  exact ⟨p, hp, hwithin.1⟩

end Pieces

/-! ## Texts -/

/-- The longest part of a text with so many bytes, and the rest. -/
def takeBytes : ℕ → List Char → List Char × List Char
  | _, [] => ([], [])
  | room, c :: text =>
    if c.utf8Size ≤ room then
      let (taken, rest) := takeBytes (room - c.utf8Size) text
      (c :: taken, rest)
    else ([], c :: text)

/-- `CHUNK_BYTES`. -/
def chunkBytes : ℕ := 4096

/-- The chunks of a text; each takes a character at least. -/
def chunksOf : ℕ → List Char → List (List Char)
  | 0, _ => []
  | _, [] => []
  | n + 1, text =>
    let (taken, rest) := takeBytes chunkBytes text
    taken :: chunksOf n rest

/-- Whole pieces of new chunks. -/
def newPieces : ℕ → List (List Char) → List Piece
  | _, [] => []
  | next, text :: texts =>
    if h : 0 < text.length then
      ⟨⟨next, text⟩, 0, text.length, h, le_rfl⟩ :: newPieces (next + 1) texts
    else newPieces next texts

/-- A text; the number of its root stands for the address of the tree. -/
structure Text where
  root : ℕ
  pieces : List Piece
  ordered : pieces.Pairwise Pieces.InOrder

/-- The addresses that an edit gets: that of the new tree, and that of its first new chunk. -/
structure Supply where
  root : ℕ
  chunk : ℕ

namespace Text

variable {β : Type} {g : Chunk → ℕ → β}

theorem le_id_newPieces : ∀ {next : ℕ} {texts : List (List Char)} {p : Piece},
    p ∈ newPieces next texts → next ≤ p.chunk.id
  | _, [], _, h => nomatch h
  | next, text :: texts, p, h => by
    unfold newPieces at h
    split at h
    · rcases mem_cons.mp h with rfl | h
      · exact le_rfl
      · exact (Nat.le_succ next).trans (le_id_newPieces h)
    · exact le_id_newPieces h

theorem ordered_newPieces : ∀ (next : ℕ) (texts : List (List Char)),
    (newPieces next texts).Pairwise Pieces.InOrder
  | _, [] => List.Pairwise.nil
  | next, text :: texts => by
    unfold newPieces
    split
    · refine pairwise_cons.mpr ⟨fun p hp hid => ?_, ordered_newPieces (next + 1) texts⟩
      have hle := le_id_newPieces hp
      dsimp only at hid
      omega
    · exact ordered_newPieces next texts

/-- A number above those of all chunks of a text. -/
def bound (t : Text) : ℕ := (t.pieces.map fun p => p.chunk.id + 1).foldr max 0

theorem id_lt_bound {t : Text} {p : Piece} (hp : p ∈ t.pieces) : p.chunk.id < t.bound := by
  unfold bound
  have hmem : p.chunk.id + 1 ∈ t.pieces.map fun p => p.chunk.id + 1 := mem_map_of_mem hp
  generalize t.pieces.map (fun p => p.chunk.id + 1) = ids at hmem
  induction ids with
  | nil => exact nomatch hmem
  | cons x ids ih =>
    rw [foldr_cons]
    rcases mem_cons.mp hmem with rfl | hmem
    · exact lt_of_lt_of_le (Nat.lt_succ_self _) (le_max_left _ _)
    · exact lt_of_lt_of_le (ih hmem) (le_max_right _ _)

/-- `Text::default`. -/
def empty : Text := ⟨0, [], List.Pairwise.nil⟩

/-- `Text::from_text`. -/
def fromText (text : List Char) (supply : Supply) : Text :=
  ⟨supply.root, newPieces supply.chunk (chunksOf text.length text), ordered_newPieces _ _⟩

/-- `Text::shares_root`.  Trees that are alive at one address are one tree. -/
def sharesRoot (t u : Text) : Bool :=
  (t.pieces = [] && u.pieces = []) || (t.root = u.root && t.pieces = u.pieces)

theorem pieces_eq_of_sharesRoot {t u : Text} (h : t.sharesRoot u) : t.pieces = u.pieces := by
  unfold sharesRoot at h
  simp only [Bool.or_eq_true, Bool.and_eq_true, decide_eq_true_eq] at h
  rcases h with h | h
  · rw [h.1, h.2]
  · exact h.2

/-- `Text::len`. -/
def len (t : Text) : ℕ := (t.pieces.map Piece.len).sum

/-- `Text::to_text`. -/
def toText (t : Text) : List Char := t.pieces.flatMap Piece.text

/-- The items of a text. -/
def read (g : Chunk → ℕ → β) (t : Text) : List β := Pieces.read g t.pieces

/-- New chunks are at addresses that no chunk of the text has. -/
theorem ordered_replace (t : Text) (start count supply : ℕ) (texts : List (List Char)) :
    ((Pieces.split t.pieces start).1 ++ newPieces (max supply t.bound) texts ++
      (Pieces.split (Pieces.split t.pieces start).2 count).2).Pairwise Pieces.InOrder := by
  have hfirst : ((Pieces.split t.pieces start).1 ++ (Pieces.split t.pieces start).2).Pairwise
      Pieces.InOrder := Pieces.inOrder_split t.pieces [] start t.ordered
  have hsecond := Pieces.inOrder_split _ _ count hfirst
  have hold : ((Pieces.split t.pieces start).1 ++
      (Pieces.split (Pieces.split t.pieces start).2 count).2).Pairwise Pieces.InOrder :=
    hsecond.sublist (List.Sublist.append_left (sublist_append_right _ _) _)
  obtain ⟨hleft, hright, hcross⟩ := pairwise_append.mp hold
  have hknown : ∀ x, x ∈ (Pieces.split t.pieces start).1 ∨
      x ∈ (Pieces.split (Pieces.split t.pieces start).2 count).2 → x.chunk.id < t.bound := by
    intro x hx
    have hfrom : ∃ p ∈ t.pieces, x.chunk = p.chunk := by
      rcases hx with hx | hx
      · exact Pieces.mem_split (.inl hx)
      · obtain ⟨p, hp, heq⟩ := Pieces.mem_split (.inr hx)
        obtain ⟨p', hp', heq'⟩ := Pieces.mem_split (.inr hp)
        exact ⟨p', hp', heq.trans heq'⟩
    obtain ⟨p, hp, heq⟩ := hfrom
    rw [heq]
    exact id_lt_bound hp
  have hnew : ∀ x ∈ newPieces (max supply t.bound) texts, t.bound ≤ x.chunk.id := fun x hx =>
    (le_max_right _ _).trans (le_id_newPieces hx)
  refine pairwise_append.mpr ⟨pairwise_append.mpr ⟨hleft, ordered_newPieces _ _,
    fun x hx y hy hid => ?_⟩, hright, fun x hx y hy => ?_⟩
  · have hlt := hknown x (.inl hx)
    have hle := hnew y hy
    omega
  · rcases mem_append.mp hx with hx | hx
    · exact hcross x hx y hy
    · intro hid
      have hlt := hknown y (.inr hy)
      have hle := hnew x hx
      omega

/-- `Text::replace`.  The chunks of the new text are at addresses from the supply on that no chunk
of the text has. -/
def replace (t : Text) (start stop : ℕ) (text : List Char) (supply : Supply) : Except TextError Text :=
  if stop < start ∨ t.len < stop then .error .invalidRange
  else if start = stop ∧ text = [] then .ok t
  else .ok
    ⟨supply.root, (Pieces.split t.pieces start).1 ++
      newPieces (max supply.chunk t.bound) (chunksOf text.length text) ++
      (Pieces.split (Pieces.split t.pieces start).2 (stop - start)).2, ordered_replace _ _ _ _ _⟩

/-! ### What a replacement does -/

theorem length_read (g : Chunk → ℕ → β) (t : Text) : (t.read g).length = t.len := by
  unfold read Pieces.read len
  rw [length_flatMap]
  simp

theorem toText_eq_read (t : Text) : t.toText = t.read Piece.charAt :=
  flatMap_congr fun p _ => p.text_eq_read

theorem length_toText (t : Text) : t.toText.length = t.len := by
  rw [toText_eq_read]
  exact t.length_read _

/-- **A replacement splices.** -/
theorem read_replace {t t' : Text} {start stop : ℕ} {text : List Char} {supply : Supply}
    (h : t.replace start stop text supply = .ok t') :
    t'.read g = splice (t.read g) start stop
      (Pieces.read g (newPieces (max supply.chunk t.bound) (chunksOf text.length text))) := by
  unfold replace at h
  split at h
  · cases h
  rename_i hrange
  rw [not_or, not_lt, not_lt] at hrange
  split at h
  · next hempty =>
    obtain rfl := Except.ok.inj h
    rw [hempty.1, hempty.2]
    change t.read g = (t.read g).take stop ++ [] ++ (t.read g).drop stop
    rw [append_nil, take_append_drop]
  obtain rfl := Except.ok.inj h
  have hlen := t.length_read g
  unfold read at hlen ⊢
  dsimp only
  obtain ⟨hleft, htail⟩ := Pieces.read_split (g := g) t.pieces (k := start) (by omega)
  obtain ⟨-, hright⟩ := Pieces.read_split (g := g) (Pieces.split t.pieces start).2
    (k := stop - start) (by rw [htail, length_drop]; omega)
  rw [Pieces.read_append, Pieces.read_append, hleft, hright, htail, drop_drop,
    Nat.add_sub_cancel' hrange.1]
  rfl

/-- A replacement is within the text. -/
theorem range_of_replace {t t' : Text} {start stop : ℕ} {text : List Char} {supply : Supply}
    (h : t.replace start stop text supply = .ok t') : start ≤ stop ∧ stop ≤ t.len := by
  unfold replace at h
  split at h
  · cases h
  rename_i hrange
  simpa only [not_or, not_lt] using hrange

theorem exists_replace {t : Text} {start stop : ℕ} (text : List Char) (supply : Supply)
    (hle : start ≤ stop) (hstop : stop ≤ t.len) : ∃ t', t.replace start stop text supply = .ok t' := by
  unfold replace
  rw [if_neg (by omega)]
  split
  · exact ⟨_, rfl⟩
  · exact ⟨_, rfl⟩

/-! ### New text -/

theorem takeBytes_append : ∀ (room : ℕ) (text : List Char),
    (takeBytes room text).1 ++ (takeBytes room text).2 = text
  | _, [] => rfl
  | room, c :: text => by
    unfold takeBytes
    split
    · exact congrArg (c :: ·) (takeBytes_append _ text)
    · rfl

/-- The first character is taken. -/
theorem length_takeBytes_lt (room : ℕ) (hroom : 4 ≤ room) (c : Char) (text : List Char) :
    (takeBytes room (c :: text)).2.length < (c :: text).length := by
  have hall := congrArg List.length (takeBytes_append (room - c.utf8Size) text)
  rw [length_append] at hall
  unfold takeBytes
  rw [if_pos (c.utf8Size_le_four.trans hroom)]
  dsimp only
  rw [length_cons]
  omega

theorem flatten_chunksOf : ∀ (n : ℕ) (text : List Char), text.length ≤ n →
    (chunksOf n text).flatten = text
  | 0, text, h => by
    rw [eq_nil_of_length_eq_zero (Nat.le_zero.mp h)]
    rfl
  | n + 1, [], _ => rfl
  | n + 1, c :: text, h => by
    have hlt := length_takeBytes_lt chunkBytes (by decide) c text
    have hrest := flatten_chunksOf n (takeBytes chunkBytes (c :: text)).2 (by omega)
    unfold chunksOf
    dsimp only
    rw [flatten_cons, hrest, takeBytes_append]

/-- New pieces read as what their characters do. -/
theorem read_newPieces {h : Char → β} (next : ℕ)
    (hg : ∀ chunk k, next ≤ chunk.id → g chunk k = h (Piece.charAt chunk k)) :
    ∀ {low : ℕ} (texts : List (List Char)), next ≤ low →
      Pieces.read g (newPieces low texts) = texts.flatten.map h
  | _, [], _ => rfl
  | low, text :: texts, hle => by
    unfold newPieces
    split
    · next hlen =>
      let p : Piece := ⟨⟨low, text⟩, 0, text.length, hlen, le_rfl⟩
      have hread : p.read g = (p.read Piece.charAt).map h := by
        unfold Piece.read
        rw [map_map]
        exact map_congr_left fun k _ => hg p.chunk k hle
      have htext : p.text = text := by
        exact take_length
      rw [Pieces.read_cons, flatten_cons, map_append,
        read_newPieces next hg texts (hle.trans (Nat.le_succ low))]
      congr 1
      rw [hread, ← Piece.text_eq_read, htext]
    · next hlen =>
      rw [eq_nil_of_length_eq_zero (Nat.eq_zero_of_not_pos hlen)]
      exact read_newPieces next hg texts hle

end Text

end Mica
