import Mica.Buffer.RopeTree

/-!
# Buffer/RopeText — a text and its tree are the plain string

A rope is sound if its caches and its balance are right and its chunks fit.  Texts that are made and
replaced stay sound, and everything that is asked of a sound rope is what the characters say.
-/

open SpanEdit List JoinTree

namespace Mica

/-! ## The chunks of a text -/

/-- As many characters are taken as have room. -/
theorem exists_takeBytes (s : List Char) : ∀ room : ℕ, ∃ k ≤ s.length,
    takeBytes room s = (s.take k, s.drop k) ∧ Utf8.byteLen (s.take k) ≤ room ∧
      ∀ j, k < j → room < Utf8.byteLen (s.take j) ∨
        Utf8.byteLen (s.take j) = Utf8.byteLen (s.take k) := by
  induction s with
  | nil => exact fun room => ⟨0, le_rfl, rfl, Nat.zero_le _, fun j _ => .inr (by simp)⟩
  | cons c s ih =>
    intro room
    rw [takeBytes]
    split
    · next hfits =>
      obtain ⟨k, hk, htake, hroom, hnext⟩ := ih (room - c.utf8Size)
      refine ⟨k + 1, Nat.succ_le_succ hk, by rw [htake]; rfl, ?_, fun j hj => ?_⟩
      · rw [take_succ_cons, Utf8.byteLen_cons]
        omega
      · obtain ⟨j, rfl⟩ := Nat.exists_eq_succ_of_ne_zero (Nat.ne_zero_of_lt hj)
        rw [take_succ_cons, take_succ_cons, Utf8.byteLen_cons, Utf8.byteLen_cons]
        have hrest := hnext j (Nat.lt_of_succ_lt_succ hj)
        omega
    · next hfull =>
      refine ⟨0, Nat.zero_le _, rfl, Nat.zero_le _, fun j hj => .inl ?_⟩
      obtain ⟨j, rfl⟩ := Nat.exists_eq_succ_of_ne_zero (Nat.ne_zero_of_lt hj)
      rw [take_succ_cons, Utf8.byteLen_cons]
      omega

namespace Rope

variable {rope : Rope} {start stop k : ℕ} {text : List Char}

/-- The pieces of a rope. -/
def pieces (rope : Rope) : List Piece := JoinTree.rootItems rope.root

/-- The characters of a rope. -/
def content (rope : Rope) : List Char := rope.pieces.flatMap Piece.text

theorem content_eq_read (rope : Rope) : rope.content = Pieces.read Piece.charAt rope.pieces :=
  flatMap_congr fun p _ => p.text_eq_read

/-- The caches and the balance of the tree are right, and the chunks fit. -/
structure Sound (rope : Rope) : Prop where
  check : JoinTree.RootCheck Piece.counts rope.root
  fits : ∀ p ∈ rope.pieces, p.chunk.Fits

theorem Sound.root {node : TextNode} (h : Sound ⟨some node⟩) : node.Sound := ⟨h.check node rfl, h.fits⟩

theorem Sound.len_eq (h : Sound rope) : rope.len = rope.content.length := by
  match rope, h with
  | ⟨none⟩, _ => rfl
  | ⟨some node⟩, h => exact h.root.scalars_eq

theorem Sound.len_total (h : Sound rope) : rope.len = Pieces.total rope.pieces := by
  match rope, h with
  | ⟨none⟩, _ => rfl
  | ⟨some node⟩, h => exact h.root.scalars_total

/-! ## Making and replacing texts -/

/-- The next chunk takes the characters that have room, and ends at a boundary. -/
theorem exists_chunk (text : List Char) (i : ℕ) (hne : text.drop i ≠ []) : ∃ k, 0 < k ∧
    k ≤ (text.drop i).length ∧
    takeBytes chunkBytes (text.drop i) = ((text.drop i).take k, (text.drop i).drop k) ∧
    Utf8.byteLen ((text.drop i).take k) ≤ chunkBytes ∧
    Utf8.floorBoundary text (min (Utf8.byteLen (text.take i) + chunkBytes) (Utf8.byteLen text)) =
      Utf8.byteLen (text.take (i + k)) := by
  obtain ⟨k, hk, htake, hroom, hnext⟩ := exists_takeBytes (text.drop i) chunkBytes
  have hadd : ∀ j, Utf8.byteLen (text.take (i + j)) =
      Utf8.byteLen (text.take i) + Utf8.byteLen ((text.drop i).take j) := by
    intro j
    rw [Utf8.byteLen_take_add text (Nat.le_add_right i j), Nat.add_sub_cancel_left]
  refine ⟨k, ?_, hk, htake, hroom, Utf8.floorBoundary_eq text (i + k) ?_ fun j hj => ?_⟩
  · rcases hrest : text.drop i with _ | ⟨c, rest⟩
    · exact absurd hrest hne
    · have hshort := Text.length_takeBytes_lt chunkBytes (by decide) c rest
      rw [← hrest, htake, length_drop] at hshort
      omega
  · rw [hadd]
    refine le_min (by omega) ?_
    rw [← hadd]
    exact Utf8.byteLen_take_le _ _
  · obtain ⟨j, rfl⟩ := Nat.exists_eq_add_of_le ((Nat.le_add_right i k).trans hj.le)
    rw [hadd, hadd]
    have hspec := hnext j (by omega)
    omega

theorem Sound.exists_join {left right : TextRoot} (hleft : Sound ⟨left⟩) (hright : Sound ⟨right⟩) :
    ∃ joined, JoinTree.joinRoots left right = some joined ∧ Sound ⟨joined⟩ ∧
      JoinTree.rootItems joined = JoinTree.rootItems left ++ JoinTree.rootItems right := by
  obtain ⟨joined, hjoin, hcheck, hitems⟩ := exists_joinRoots hleft.check hright.check
  refine ⟨joined, hjoin, ⟨hcheck, fun p hp => ?_⟩, hitems⟩
  rw [pieces, hitems] at hp
  exact (mem_append.mp hp).elim (hleft.fits p) (hright.fits p)

/-- A tree takes one more chunk. -/
theorem Sound.exists_joinChunk {root : TextRoot} (hroot : Sound ⟨root⟩) {chunk : Chunk}
    (hfits : chunk.Fits) (hpos : 0 < chunk.text.length) : ∃ leaf joined,
    (Piece.ofRange chunk 0 chunk.scalars).bind TextNode.leaf = some leaf ∧
    JoinTree.joinRoots root (some leaf) = some joined ∧ Sound ⟨joined⟩ ∧
    JoinTree.rootItems joined = JoinTree.rootItems root ++
      [⟨chunk, 0, chunk.text.length, hpos, le_rfl⟩] := by
  obtain ⟨leaf, hleaf, hcheck, hitems⟩ :=
    TextNode.exists_leaf (p := ⟨chunk, 0, chunk.text.length, hpos, le_rfl⟩) hfits
  have hsound : Sound ⟨some leaf⟩ := by
    refine ⟨rootCheck_some hcheck, fun p hp => ?_⟩
    rw [pieces, rootItems_some, hitems] at hp
    obtain rfl := mem_singleton.mp hp
    exact hfits
  obtain ⟨joined, hjoin, hjoined, hpieces⟩ := hroot.exists_join hsound
  rw [rootItems_some, hitems] at hpieces
  refine ⟨leaf, joined, ?_, hjoin, hjoined, hpieces⟩
  rwa [chunk.scalars_eq, Piece.exists_ofRange chunk hpos le_rfl]

/-- **Making a text**, from a byte offset on: the rest of the text comes in new pieces. -/
theorem exists_fromTextFrom (text : List Char) : ∀ (fuel n i next : ℕ) (root : TextRoot),
    Utf8.byteLen (text.drop i) ≤ fuel → (text.drop i).length ≤ n → Sound ⟨root⟩ →
    ∃ rope, fromTextFrom text fuel (Utf8.byteLen (text.take i)) next root = some rope ∧ Sound rope ∧
      rope.pieces = JoinTree.rootItems root ++ newPieces next (chunksOf n (text.drop i)) := by
  -- where nothing is left, no piece is added
  have hdone : ∀ (n next : ℕ) (root : TextRoot) (rest : List Char), Sound ⟨root⟩ → rest = [] →
      Sound ⟨root⟩ ∧ pieces ⟨root⟩ = JoinTree.rootItems root ++ newPieces next (chunksOf n rest) := by
    rintro (_ | n) next root rest hroot rfl
    · exact ⟨hroot, (append_nil _).symm⟩
    · exact ⟨hroot, (append_nil _).symm⟩
  intro fuel
  induction fuel with
  | zero =>
    intro n i next root hfuel hn hroot
    have hlen := Utf8.length_le_byteLen (text.drop i)
    exact ⟨⟨root⟩, rfl, hdone n next root _ hroot (eq_nil_of_length_eq_zero (by omega))⟩
  | succ fuel ih =>
    intro n i next root hfuel hn hroot
    have hall := Utf8.byteLen_append (text.take i) (text.drop i)
    rw [take_append_drop] at hall
    rw [fromTextFrom]
    split
    · next hlt =>
      have hne : text.drop i ≠ [] := by
        intro hnil
        rw [hnil, Utf8.byteLen_nil] at hall
        omega
      obtain ⟨k, hpos, hk, htake, hroom, hstop⟩ := exists_chunk text i hne
      have hlen : ((text.drop i).take k).length = k := by
        rw [length_take, min_eq_left hk]
      have hnonempty : 0 < (Chunk.mk next ((text.drop i).take k)).text.length := hlen.symm ▸ hpos
      have hfits : Chunk.Fits ⟨next, (text.drop i).take k⟩ := hroom
      obtain ⟨leaf, joined, hleaf, hjoin, hjoined, hpieces⟩ := hroot.exists_joinChunk hfits hnonempty
      have hdrop : (text.drop i).drop k = text.drop (i + k) := drop_drop
      have hbytes := Utf8.byteLen_append ((text.drop i).take k) ((text.drop i).drop k)
      rw [take_append_drop, hdrop] at hbytes
      have htaken := Utf8.length_le_byteLen ((text.drop i).take k)
      obtain ⟨m, rfl⟩ : ∃ m, n = m + 1 := Nat.exists_eq_succ_of_ne_zero (by omega)
      obtain ⟨rope, hrest, hrope, hrestpieces⟩ := ih m (i + k) (next + 1) joined (by omega)
        (by rw [← hdrop, length_drop]; omega) hjoined
      refine ⟨rope, ?_, hrope, ?_⟩
      · have hslice := Utf8.slice_take text (Nat.le_add_right i k)
        rw [Nat.add_sub_cancel_left] at hslice
        obtain ⟨piece, hpiece, hleaf'⟩ := Option.bind_eq_some_iff.mp hleaf
        rw [hstop]
        dsimp only
        rwa [hslice, Option.bind_eq_bind, Option.bind_some, hpiece, Option.bind_eq_bind,
          Option.bind_some, hleaf', Option.bind_eq_bind, Option.bind_some,
          hjoin]
      have hchunks : chunksOf (m + 1) (text.drop i) =
          (text.drop i).take k :: chunksOf m (text.drop (i + k)) := by
        rcases hrest' : text.drop i with _ | ⟨c, rest⟩
        · exact absurd hrest' hne
        · rw [chunksOf, ← hrest', htake, hdrop]
          exact cons_ne_nil c rest
      rw [hchunks, newPieces, dif_pos hnonempty, hrestpieces, hpieces, append_assoc]
      rfl
    · next hge =>
      have hlen := Utf8.length_le_byteLen (text.drop i)
      exact ⟨⟨root⟩, rfl, hdone n next root _ hroot (eq_nil_of_length_eq_zero (by omega))⟩

theorem sound_none : Sound ⟨none⟩ := ⟨rootCheck_none, nofun⟩

/-- **A new text** has the pieces of its chunks. -/
theorem exists_fromText (text : List Char) (next : ℕ) : ∃ rope, fromText text next = some rope ∧
    Sound rope ∧ rope.pieces = newPieces next (chunksOf text.length text) :=
  exists_fromTextFrom text (Utf8.byteLen text) text.length 0 next none le_rfl le_rfl sound_none

/-- **Splitting a text** splits its pieces. -/
theorem Sound.exists_split {root : TextRoot} (hroot : Sound ⟨root⟩)
    (hk : k ≤ Pieces.total (JoinTree.rootItems root)) : ∃ left right,
      split root k = some (left, right) ∧
      Sound ⟨left⟩ ∧ Sound ⟨right⟩ ∧
      (JoinTree.rootItems left, JoinTree.rootItems right) =
        Pieces.split (JoinTree.rootItems root) k := by
  match root, hroot with
  | none, hroot => exact ⟨none, none, rfl, hroot, hroot, rfl⟩
  | some node, hroot =>
    obtain ⟨left, right, hsplit, hleft, hright, hitems⟩ :=
      hroot.root.exists_split node (hroot.root.scalars_total.symm ▸ hk)
    have hfits : ∀ p, p ∈ JoinTree.rootItems left ∨ p ∈ JoinTree.rootItems right → p.chunk.Fits := by
      intro p hp
      have hp' : p ∈ (Pieces.split node.items k).1 ∨ p ∈ (Pieces.split node.items k).2 := by
        rwa [← hitems]
      obtain ⟨q, hq, hchunk⟩ := Pieces.mem_split hp'
      rw [hchunk]
      exact hroot.fits q hq
    exact ⟨left, right, hsplit, ⟨hleft, fun p hp => hfits p (.inl hp)⟩,
      ⟨hright, fun p hp => hfits p (.inr hp)⟩, hitems⟩

/-- The pieces of a text after a replacement. -/
def replacedPieces (ps : List Piece) (start stop : ℕ) (text : List Char) (next : ℕ) : List Piece :=
  (Pieces.split ps start).1 ++ newPieces next (chunksOf text.length text) ++
    (Pieces.split (Pieces.split ps start).2 (stop - start)).2

/-- **Replacing a range** replaces the pieces. -/
theorem Sound.exists_replace (hrope : Sound rope) (hrange : ¬ rope.InvalidRange start stop)
    (htext : ¬(start = stop ∧ text = [])) (next : ℕ) :
    ∃ rope', rope.replace start stop text next = some (.ok rope') ∧ Sound rope' ∧
      rope'.pieces = replacedPieces rope.pieces start stop text next := by
  have hin := hrange
  rw [InvalidRange, not_or, not_lt, not_lt, hrope.len_total] at hin
  obtain ⟨left, tail, hsplit, hleft, htail, hitems⟩ := hrope.exists_split (hin.1.trans hin.2)
  have hcut := Pieces.read_split (g := Piece.charAt) rope.pieces (k := start)
  have hlen : ∀ ps : List Piece, (Pieces.read Piece.charAt ps).length = Pieces.total ps := by
    intro ps
    rw [Pieces.read, length_flatMap, Pieces.total]
    exact congrArg List.sum (map_congr_left fun p _ => p.length_read _)
  have hleft' : JoinTree.rootItems left = (Pieces.split rope.pieces start).1 :=
    congrArg Prod.fst hitems
  have htail' : JoinTree.rootItems tail = (Pieces.split rope.pieces start).2 :=
    congrArg Prod.snd hitems
  have htotal : Pieces.total (JoinTree.rootItems tail) = Pieces.total rope.pieces - start := by
    rw [← hlen, htail', (hcut (by rw [hlen]; omega)).2, length_drop, hlen]
  obtain ⟨middle, right, hsplit', -, hright, hitems'⟩ :=
    htail.exists_split (k := stop - start) (by omega)
  obtain ⟨inserted, hinserted, hsound, hpieces⟩ := exists_fromText text next
  obtain ⟨first, hfirst, hfirstsound, hfirstitems⟩ := hleft.exists_join hsound
  obtain ⟨whole, hwhole, hwholesound, hwholeitems⟩ := hfirstsound.exists_join hright
  refine ⟨⟨whole⟩, ?_, hwholesound, ?_⟩
  · rw [replace, if_neg hrange, if_neg htext, hsplit, Option.bind_eq_bind, Option.bind_some]
    dsimp only
    rw [hsplit', Option.bind_eq_bind, Option.bind_some]
    dsimp only
    rw [hinserted, Option.bind_eq_bind, Option.bind_some, hfirst, Option.bind_some, hwhole]
    rfl
  have hright' : JoinTree.rootItems right =
      (Pieces.split (Pieces.split rope.pieces start).2 (stop - start)).2 := by
    rw [← htail']
    exact congrArg Prod.snd hitems'
  rw [replacedPieces, pieces, hwholeitems, hfirstitems, hleft', hright', ← hpieces]
  rfl

theorem read_fromText (text : List Char) (next : ℕ) :
    Pieces.read Piece.charAt (newPieces next (chunksOf text.length text)) = text := by
  have hnew := Text.read_newPieces (g := Piece.charAt) (h := id) next (fun _ _ _ => rfl)
    (chunksOf text.length text) le_rfl
  rwa [Text.flatten_chunksOf _ _ le_rfl, map_id] at hnew

/-- **A replacement splices the characters.** -/
theorem read_replacedPieces (ps : List Piece) (hle : start ≤ stop)
    (hstop : stop ≤ (Pieces.read Piece.charAt ps).length) (text : List Char) (next : ℕ) :
    Pieces.read Piece.charAt (replacedPieces ps start stop text next) =
      splice (Pieces.read Piece.charAt ps) start stop text := by
  obtain ⟨hleft, htail⟩ := Pieces.read_split (g := Piece.charAt) ps (k := start) (hle.trans hstop)
  obtain ⟨-, hright⟩ := Pieces.read_split (g := Piece.charAt) (Pieces.split ps start).2
    (k := stop - start) (by rw [htail, length_drop]; omega)
  rw [replacedPieces, Pieces.read_append, Pieces.read_append, hleft, hright, htail, drop_drop,
    Nat.add_sub_cancel' hle, read_fromText]
  rfl

end Rope

end Mica
