import Mica.Buffer.Text

/-!
# Buffer/Delta — edits in the coordinates of a base text

`Delta::between` reads the edits off the chunks that a view has kept of its base.  Edits that touch
come out as one, so that a delta does not tell any more who made which part of it.
-/

open SpanEdit

namespace Mica

abbrev Replacement := Span Char

/-- Sorted, disjoint replacements in the coordinates of one base text. -/
structure Delta where
  replacements : List Replacement
  deriving DecidableEq

/-- Remaining reconciliation work. -/
structure DeltaBudget where
  pieces : ℕ
  textBytes : ℕ
  replacements : ℕ
  deriving DecidableEq

namespace DeltaBudget

/-- `DeltaBudget::default`. -/
def default : DeltaBudget := ⟨4096, 2 ^ 20, 1024⟩

/-- All of `usize::MAX`. -/
def unbounded : DeltaBudget := ⟨2 ^ 64 - 1, 2 ^ 64 - 1, 2 ^ 64 - 1⟩

/-- `DeltaBudget::pieces`. -/
def takePieces (b : DeltaBudget) (count : ℕ) : Except DeltaError DeltaBudget :=
  if b.pieces < count then .error .budgetExceeded else .ok { b with pieces := b.pieces - count }

/-- `DeltaBudget::text`. -/
def takeText (b : DeltaBudget) (count : ℕ) : Except DeltaError DeltaBudget :=
  if b.textBytes < count then .error .budgetExceeded
  else .ok { b with textBytes := b.textBytes - count }

/-- One replacement. -/
def takeReplacement (b : DeltaBudget) : Except DeltaError DeltaBudget :=
  if b.replacements < 1 then .error .budgetExceeded
  else .ok { b with replacements := b.replacements - 1 }

end DeltaBudget

/-- Where a range of a chunk stands in the base. -/
structure BaseSpan where
  start : ℕ
  stop : ℕ
  offset : ℕ

/-- The spans of one chunk, in the order of the base. -/
def baseSpans (id : ℕ) : ℕ → List Piece → List BaseSpan
  | _, [] => []
  | offset, p :: ps =>
    if p.chunk.id = id then ⟨p.start, p.stop, offset⟩ :: baseSpans id (offset + p.len) ps
    else baseSpans id (offset + p.len) ps

/-- What `Delta::between` has found so far. -/
structure Between where
  out : List Replacement
  cursor : ℕ
  inserted : List Char
  budget : DeltaBudget

namespace Between

/-- `flush`: what is between the cursor and a kept position is replaced by what was inserted. -/
def flush (s : Between) (retained : ℕ) : Except DeltaError Between :=
  if retained ≤ s.cursor ∧ s.inserted = [] then .ok s
  else
    match s.budget.takeReplacement with
    | .error e => .error e
    | .ok budget =>
      .ok { s with
        out := s.out ++ [⟨s.cursor, retained, s.inserted⟩], inserted := [], budget := budget }

/-- A piece of a chunk that the base does not have. -/
def insert (s : Between) (p : Piece) : Except DeltaError Between :=
  match s.budget.takeText (p.text.map Char.utf8Size).sum with
  | .error e => .error e
  | .ok budget => .ok { s with inserted := s.inserted ++ p.text, budget := budget }

/-- A range of a chunk, over the spans of the base that hold it. -/
def retain (stop : ℕ) : List BaseSpan → ℕ → Between → Except DeltaError (ℕ × Between)
  | [], start, s => .ok (start, s)
  | span :: spans, start, s =>
    if start = stop then .ok (start, s)
    else
      match s.budget.takePieces 1 with
      | .error e => .error e
      | .ok budget =>
        if start < span.start then .error .foreignProvenance
        else
          let last := min stop span.stop
          let retained := span.offset + start - span.start
          if retained < s.cursor then .error .foreignProvenance
          else
            match flush { s with budget := budget } retained with
            | .error e => .error e
            | .ok s => retain stop spans last { s with cursor := retained + last - start }

/-- One piece of the view. -/
def piece (base : Text) (s : Between) (p : Piece) : Except DeltaError Between :=
  match baseSpans p.chunk.id 0 base.pieces with
  | [] => s.insert p
  | span :: spans =>
    match retain p.stop ((span :: spans).dropWhile fun span => span.stop ≤ p.start) p.start s with
    | .error e => .error e
    | .ok (start, s) => if start ≠ p.stop then .error .foreignProvenance else .ok s

/-- The pieces of the view. -/
def pieces (base : Text) : List Piece → Between → Except DeltaError Between
  | [], s => .ok s
  | p :: ps, s =>
    match piece base s p with
    | .error e => .error e
    | .ok s => pieces base ps s

end Between

namespace Delta

def empty : Delta := ⟨[]⟩

def isEmpty (d : Delta) : Bool := d.replacements.isEmpty

/-- `Delta::new`, one replacement after what is normalized already. -/
def newFrom : List Replacement → List Replacement → Except DeltaError (List Replacement)
  | normalized, [] => .ok normalized
  | normalized, r :: rest =>
    if r.stop < r.start then .error .invalidRange
    else if r.start = r.stop ∧ r.text = [] then newFrom normalized rest
    else
      match normalized.getLast? with
      | none => newFrom (normalized ++ [r]) rest
      | some previous =>
        if r.start < previous.stop then .error .outOfOrder
        else if previous.stop = r.start then
          newFrom (normalized.dropLast ++ [⟨previous.start, r.stop, previous.text ++ r.text⟩]) rest
        else newFrom (normalized ++ [r]) rest

/-- `Delta::new`. -/
def new (replacements : List Replacement) : Except DeltaError Delta :=
  match newFrom [] replacements with
  | .error e => .error e
  | .ok normalized => .ok ⟨normalized⟩

/-- `Delta::between`, with the budget that is left. -/
def between (base view : Text) (budget : DeltaBudget) : Except DeltaError (Delta × DeltaBudget) :=
  if base.sharesRoot view then .ok (empty, budget)
  else
    match budget.takePieces base.pieces.length with
    | .error e => .error e
    | .ok budget =>
      match budget.takePieces view.pieces.length with
      | .error e => .error e
      | .ok budget =>
        match Between.pieces base view.pieces ⟨[], 0, [], budget⟩ with
        | .error e => .error e
        | .ok s =>
          match s.flush base.len with
          | .error e => .error e
          | .ok s => .ok (⟨s.out⟩, s.budget)

/-- `complete_delta`. -/
def complete (base view : Text) : Except DeltaError Delta :=
  match between base view .unbounded with
  | .error e => .error e
  | .ok (d, _) => .ok d

/-- The replacements, from the last to the first. -/
def applyAll (supply : Supply) (base : Text) : List Replacement → Except DeltaError Text
  | [] => .ok base
  | r :: rest =>
    match applyAll supply base rest with
    | .error e => .error e
    | .ok view =>
      match view.replace r.start r.stop r.text supply with
      | .error _ => .error .invalidRange
      | .ok view => .ok view

/-- `Delta::apply`. -/
def apply (d : Delta) (base : Text) (supply : Supply) : Except DeltaError Text :=
  applyAll supply base d.replacements

/-- `replacements_conflict`. -/
def replacementsConflict (left right : Replacement) : Bool :=
  match decide (left.stop ≤ left.start), decide (right.stop ≤ right.start) with
  | true, true => left.start = right.start
  | true, false => right.start < left.start && left.start < right.stop
  | false, true => left.start < right.start && right.start < left.stop
  | false, false => left.start < right.stop && right.start < left.stop

/-- `Delta::conflicts`: the replacements of the other delta that end before the next one are behind. -/
def conflictsFrom : List Replacement → List Replacement → Bool
  | [], _ => false
  | left :: rest, others =>
    let others := others.dropWhile fun right => right.stop < left.start
    (others.takeWhile fun right => right.start ≤ left.stop).any (replacementsConflict left) ||
      conflictsFrom rest others

/-- `Delta::conflicts`. -/
def conflicts (d other : Delta) : Bool := conflictsFrom d.replacements other.replacements

/-- `shift`: a position behind a delta. -/
def shift (d : Delta) (position : ℕ) (start : Bool) : Except DeltaError ℕ :=
  if position < removed d.replacements position start then .error .invalidRange
  else .ok (position - removed d.replacements position start + inserted d.replacements position start)

/-- One replacement behind a delta. -/
def shiftReplacement (d : Delta) (r : Replacement) : Except DeltaError Replacement :=
  match shift d r.start true with
  | .error e => .error e
  | .ok start =>
    match shift d r.stop false with
    | .error e => .error e
    | .ok stop => .ok ⟨start, stop, r.text⟩

/-- `Delta::transform_after`. -/
def transformAfter (d concurrent : Delta) : Except DeltaError Delta :=
  if d.conflicts concurrent then .error .conflict
  else
    match d.replacements.mapM (shiftReplacement concurrent) with
    | .error e => .error e
    | .ok replacements => new replacements

end Delta

end Mica
