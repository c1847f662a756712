import Mica.Buffer.Text
import Mica.Lib.Borders
import Mica.Lib.JoinTree
import Mica.Lib.Lines
import Mica.Lib.Utf8

/-!
# Buffer/Rope — the tree that holds the pieces of a text

The pieces of a text stand at the leaves of a balanced tree whose nodes count the characters, bytes and
newlines below them.  A chunk keeps its text as UTF-8 with the byte offset of every thirty-second
character and the places of its newlines.  An operation answers `none` where the source would panic: a
slice inside of a character, an index out of bounds, a leaf that has no children.
-/

open Utf8

namespace Mica

/-! ## Chunks -/

/-- `SCALAR_SAMPLE`. -/
def scalarSample : ℕ := 32

namespace Chunk

/-- `Chunk::new`: the byte offset of every so many characters, as `u16`. -/
def samples (chunk : Chunk) : List ℕ :=
  ((charIndices 0 chunk.text).zipIdx.filter fun entry => entry.2 % scalarSample = 0).map fun entry =>
    entry.1.1 % 2 ^ 16

/-- `Chunk::new`: the places of the newlines, as `u16`. -/
def newlines (chunk : Chunk) : List ℕ :=
  ((charIndices 0 chunk.text).zipIdx.filter fun entry => entry.1.2 = '\n').map fun entry =>
    entry.2 % 2 ^ 16

/-- `Chunk::new`: the number of characters. -/
def scalars (chunk : Chunk) : ℕ := (charIndices 0 chunk.text).length

/-- `Chunk::byte_offset`. -/
def byteOffset (chunk : Chunk) (scalar : ℕ) : Option ℕ :=
  if scalar = chunk.scalars then some (byteLen chunk.text)
  else do
    let start ← chunk.samples[scalar / scalarSample]?
    let rest ← suffixFrom chunk.text start
    let (offset, _) ← (charIndices 0 rest)[scalar % scalarSample]?
    some (start + offset)

end Chunk

/-! ## Pieces -/

/-- The number of entries below a bound, of a sorted list. -/
def partitionPoint (entries : List ℕ) (bound : ℕ) : ℕ := (entries.takeWhile (· < bound)).length

namespace Piece

/-- A range of a chunk; it is not empty and within the chunk. -/
def ofRange (chunk : Chunk) (start stop : ℕ) : Option Piece :=
  if h : start < stop ∧ stop ≤ chunk.text.length then some ⟨chunk, start, stop, h.1, h.2⟩ else none

/-- A part of the chunk's text, by positions in the piece. -/
def textRange (p : Piece) (start stop : ℕ) : Option (List Char) := do
  let first ← p.chunk.byteOffset (p.start + start)
  let last ← p.chunk.byteOffset (p.start + stop)
  slice p.chunk.text first last

/-- `Piece::split`. -/
def split (p : Piece) (k : ℕ) : Option (Piece × Piece) := do
  let middle := p.start + k
  some (← ofRange p.chunk p.start middle, ← ofRange p.chunk middle p.stop)

/-- `Piece::newline_range`. -/
def newlineRange (p : Piece) : ℕ × ℕ :=
  (partitionPoint p.chunk.newlines p.start, partitionPoint p.chunk.newlines p.stop)

end Piece

/-! ## Nodes -/

/-- What a node counts. -/
@[ext] structure TextCounts where
  scalars : ℕ
  bytes : ℕ
  newlines : ℕ

instance : Add TextCounts where
  add a b := ⟨a.scalars + b.scalars, a.bytes + b.bytes, a.newlines + b.newlines⟩

abbrev TextNode := JoinTree TextCounts Piece

abbrev TextRoot := Option TextNode

namespace TextNode

def scalars (node : TextNode) : ℕ := node.summary.scalars

def bytes (node : TextNode) : ℕ := node.summary.bytes

def newlines (node : TextNode) : ℕ := node.summary.newlines

/-- `Node::leaf`. -/
def leaf (p : Piece) : Option TextNode := do
  let text ← p.textRange 0 p.len
  some (JoinTree.leaf ⟨p.len, byteLen text, p.newlineRange.2 - p.newlineRange.1⟩ 1 p)

/-- `split`, below a root that is there. -/
def split (node : TextNode) (k : ℕ) : Option (TextRoot × TextRoot) :=
  if k = 0 then some (none, some node)
  else if k = node.scalars then some (some node, none)
  else
    match node with
    | JoinTree.leaf _ _ piece => do
      let (left, right) ← piece.split k
      some (some (← leaf left), some (← leaf right))
    | JoinTree.branch _ _ left right =>
      if k < scalars left then do
        let (a, b) ← split left k
        some (a, ← JoinTree.joinRoots b (some right))
      else do
        let (a, b) ← split right (k - scalars left)
        some (← JoinTree.joinRoots (some left) a, b)

/-- `visit_range`, with a visitor that says whether to go on. -/
def visitRange {S : Type} (visit : S → List Char → S × Bool) (node : TextNode)
    (start stop : ℕ) (s : S) :
    Option (S × Bool) :=
  if stop ≤ start then some (s, true)
  else
    match node with
    | JoinTree.leaf _ _ piece => do
      let text ← piece.textRange start stop
      some (visit s text)
    | JoinTree.branch _ _ left right => do
      let first :=
        if start < scalars left then visitRange visit left start (min stop (scalars left)) s
        else some (s, true)
      let (s, more) ← first
      if !more then some (s, false)
      else if scalars left < stop then
        visitRange visit right (start - scalars left) (stop - scalars left) s
      else some (s, true)

/-- `append_range`. -/
def appendRange (node : TextNode) (start stop : ℕ) (out : List Char) : Option (List Char) := do
  let (out, _) ← visitRange (fun out text => (out ++ text, true)) node start stop out
  some out

/-- `newline_position`. -/
def newlinePosition : TextNode → ℕ → Option ℕ
  | JoinTree.leaf _ _ piece, index => do
    let position ← piece.chunk.newlines[piece.newlineRange.1 + index]?
    some (position - piece.start)
  | JoinTree.branch _ _ left right, index =>
    if index < newlines left then newlinePosition left index
    else do
      let position ← newlinePosition right (index - newlines left)
      some (scalars left + position)

/-- `newlines_before`. -/
def newlinesBefore : TextNode → ℕ → ℕ
  | JoinTree.leaf _ _ piece, position =>
    partitionPoint piece.chunk.newlines (piece.start + position) - piece.newlineRange.1
  | JoinTree.branch _ _ left right, position =>
    if position ≤ scalars left then newlinesBefore left position
    else newlines left + newlinesBefore right (position - scalars left)

end TextNode

/-! ## Texts -/

/-- `Text`, with its tree. -/
structure Rope where
  root : TextRoot

namespace Rope

/-- `Text::from_text`, from a byte offset on; the chunks get numbers in turn. -/
def fromTextFrom (text : List Char) : ℕ → ℕ → ℕ → TextRoot → Option Rope
  | 0, _, _, root => some ⟨root⟩
  | fuel + 1, start, next, root =>
    if start < byteLen text then do
      let stop := floorBoundary text (min (start + chunkBytes) (byteLen text))
      let chunk : Chunk := ⟨next, ← slice text start stop⟩
      let leaf ← TextNode.leaf (← Piece.ofRange chunk 0 chunk.scalars)
      fromTextFrom text fuel stop (next + 1) (← JoinTree.joinRoots root (some leaf))
    else some ⟨root⟩

/-- `Text::from_text`.  Every chunk takes a byte at least. -/
def fromText (text : List Char) (next : ℕ) : Option Rope :=
  fromTextFrom text (byteLen text) 0 next none

/-- `Text::len`. -/
def len (rope : Rope) : ℕ := rope.root.elim 0 TextNode.scalars

/-- `Text::byte_len`. -/
def byteLen (rope : Rope) : ℕ := rope.root.elim 0 TextNode.bytes

/-- `Text::line_count`. -/
def lineCount (rope : Rope) : ℕ := rope.root.elim 1 (TextNode.newlines · + 1)

/-- `Text::validate_range`: the range is out of the text. -/
def InvalidRange (rope : Rope) (start stop : ℕ) : Prop := stop < start ∨ rope.len < stop

instance (rope : Rope) (start stop : ℕ) : Decidable (rope.InvalidRange start stop) :=
  inferInstanceAs (Decidable (_ ∨ _))

/-- `Text::slice`. -/
def slice (rope : Rope) (start stop : ℕ) : Option (Except TextError (List Char)) :=
  if rope.InvalidRange start stop then some (.error .invalidRange)
  else
    match rope.root with
    | none => some (.ok [])
    | some root => do some (.ok (← root.appendRange start stop []))

/-- `Text::to_text`. -/
def toText (rope : Rope) : Option (List Char) :=
  match rope.root with
  | none => some []
  | some root => root.appendRange 0 (TextNode.scalars root) []

/-- `split`. -/
def split : TextRoot → ℕ → Option (TextRoot × TextRoot)
  | none, _ => some (none, none)
  | some root, k => TextNode.split root k

/-- `Text::replace`; new chunks get numbers in turn. -/
def replace (rope : Rope) (start stop : ℕ) (text : List Char) (next : ℕ) :
    Option (Except TextError Rope) :=
  if rope.InvalidRange start stop then some (.error .invalidRange)
  else if start = stop ∧ text = [] then some (.ok rope)
  else do
    let (left, tail) ← split rope.root start
    let (_, right) ← split tail (stop - start)
    let inserted ← fromText text next
    some (.ok ⟨← JoinTree.joinRoots (← JoinTree.joinRoots left inserted.root) right⟩)

/-- `Text::line_start`. -/
def lineStart (rope : Rope) (line : ℕ) : Option (Except TextError ℕ) :=
  if rope.lineCount ≤ line then some (.error .invalidLine)
  else if line = 0 then some (.ok 0)
  else do
    let position ← TextNode.newlinePosition (← rope.root) (line - 1)
    some (.ok (position + 1))

/-- `Text::line_column`. -/
def lineColumn (rope : Rope) (position : ℕ) : Option (Except TextError (ℕ × ℕ)) :=
  if rope.len < position then some (.error .invalidRange)
  else
    let line := rope.root.elim 0 (TextNode.newlinesBefore · position)
    do
      match ← rope.lineStart line with
      | .error e => some (.error e)
      | .ok start => some (.ok (line, position - start))

/-- `Text::line_span`. -/
def lineSpan (rope : Rope) (line : ℕ) : Option (Except TextError (ℕ × ℕ)) := do
  match ← rope.lineStart line with
  | .error e => some (.error e)
  | .ok start =>
    if line + 1 < rope.lineCount then
      match ← rope.lineStart (line + 1) with
      | .error e => some (.error e)
      | .ok stop => some (.ok (start, stop - 1))
    else some (.ok (start, rope.len))

/-- `Text::find`. -/
def find (rope : Rope) (pattern : List Char) (start limit : ℕ) : Option (Option ℕ) :=
  if pattern = [] ∨ rope.len ≤ start then some none
  else do
    let stop := if limit = 0 then rope.len else min (start + limit) rope.len
    let (search, _) ← TextNode.visitRange (Borders.visit pattern (Borders.table pattern)) (← rope.root)
      start stop ⟨0, start, none⟩
    some search.found

end Rope

end Mica
