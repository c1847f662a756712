import Mathlib.Data.List.Induction
import Mathlib.Data.List.Pairwise
import Mica.Buffer.Provenance
import Mica.Buffer.Store

/-!
# Buffer/Convergence — concurrent edits of a buffer

Transactions that begin on one state of a buffer with the `Span` policy edit it and commit in some
order. Each commit adds the edit of its transaction to that of the earlier ones (`Inv.commit`), so
that the text does not depend on the order (`final_texts_eq`), as long as no two of them insert at
one position.

The conflict check would refuse two such insertions.  It compares with the delta of everything that was
published, in which an insertion next to a replacement is one replacement: the second insertion then
touches a range, and passes.  `insertion_tie` is three transactions whose text depends on the order.
-/

open SortedList SpanEdit List
open Except (ok.inj)

namespace Mica

/-- A replacement that a transaction asks for. -/
structure TextEdit where
  start : ℕ
  stop : ℕ
  text : List Char
  supply : Supply

namespace BufferTransaction

/-- Replacements of one buffer, one after the other; one that fails changes nothing. -/
def edit (id : Identity) (tx : BufferTransaction) : List TextEdit → BufferTransaction
  | [] => tx
  | e :: edits =>
    match tx.replaceBuffer id e.start e.stop e.text e.supply with
    | .error _ => tx.edit id edits
    | .ok tx => tx.edit id edits

/-- The text of a buffer, as the transaction sees it. -/
def view (tx : BufferTransaction) (id : Identity) : Text :=
  match tx.bufferWrites.get? id with
  | some pending => pending.text
  | none => tx.baseText id

/-- The positions of the base at which a transaction inserts. -/
def insertionsOf (tx : BufferTransaction) (id : Identity) : List ℕ :=
  insertions (tx.baseText id).len ((tx.baseText id).tokens (tx.view id))

end BufferTransaction

/-- A commit of a transaction: the states after it, and what it published. -/
structure BufferCommit where
  states : BufferStates
  changes : List BufferChange

/-- Transactions that commit one after the other, each with the addresses that it gets. -/
def commitAll (relations : List RelationMetadata) :
    BufferStates → List (BufferTransaction × Supply) → Except KernelError (List BufferCommit)
  | _, [] => .ok []
  | states, (tx, supply) :: order =>
    match materializeBuffers relations states supply tx with
    | .error e => .error e
    | .ok (next, changes) =>
      match commitAll relations next order with
      | .error e => .error e
      | .ok commits => .ok (⟨next, changes⟩ :: commits)

/-- The states after all commits. -/
def finalStates (states : BufferStates) (commits : List BufferCommit) : BufferStates :=
  (commits.getLast?.map BufferCommit.states).getD states

/-- **What a commit publishes makes the new text of the old one.** -/
def Publishes (before : BufferStates) (commit : BufferCommit) : Prop :=
  ∀ change ∈ commit.changes, ∃ previous next, before.get? change.metadata.id = some previous ∧
    commit.states.get? change.metadata.id = some next ∧
    ∀ supply, ∃ text, change.delta.apply previous.text supply = .ok text ∧
      text.toText = next.text.toText

/-- Every commit of a run does. -/
def PublishesAll : BufferStates → List BufferCommit → Prop
  | _, [] => True
  | before, commit :: commits => Publishes before commit ∧ PublishesAll commit.states commits

/-! ## The view of a transaction -/

section Views

variable {start : BufferStates} {id : Identity} {base : BufferState}

/-- A write that only edits. -/
structure Edits (base : BufferState) (pending : PendingBuffer) : Prop where
  metadata : pending.metadata = base.metadata
  base : pending.base = some base
  deleted : pending.deleted = false
  compact : pending.compact = false
  reverted : pending.reverted = false

/-- A transaction that has only edited one buffer. -/
structure Edited (start : BufferStates) (id : Identity) (base : BufferState) (tx : BufferTransaction) :
    Prop where
  base_eq : tx.base = start
  writes : tx.bufferWrites.list = [] ∨
    ∃ pending, tx.bufferWrites.list = [(id, pending)] ∧ Edits base pending
  shows : base.text.Shows (tx.view id)

variable {tx : BufferTransaction}

theorem get?_of_list_nil (h : tx.bufferWrites.list = []) :
    tx.bufferWrites.get? id = none := by
  unfold SortedMap.get?
  rw [h]
  rfl

theorem get?_of_list_singleton {pending : PendingBuffer}
    (h : tx.bufferWrites.list = [(id, pending)]) : tx.bufferWrites.get? id = some pending := by
  unfold SortedMap.get?
  rw [h]
  simp

theorem Edited.baseText (h : Edited start id base tx)
    (hbase : start.get? id = some base) : tx.baseText id = base.text := by
  unfold BufferTransaction.baseText
  rw [h.base_eq, hbase]

theorem Edited.new (hbase : start.get? id = some base) : Edited start id base (.new start) where
  base_eq := rfl
  writes := .inl rfl
  shows := by
    have hview : (BufferTransaction.new start).view id = base.text := by
      unfold BufferTransaction.view BufferTransaction.baseText
      dsimp only [BufferTransaction.new]
      rw [SortedMap.get?_empty, hbase]
    rw [hview]
    exact base.text.shows_self

/-- The text that is edited is the one that is seen. -/
theorem bufferText_eq_view {text : Text} (h : tx.bufferText id = .ok text) :
    text = tx.view id := by
  unfold BufferTransaction.bufferText at h
  unfold BufferTransaction.view
  cases hwrite : tx.bufferWrites.get? id with
  | some pending =>
    rw [hwrite] at h
    dsimp only at h
    split at h
    · cases h
    exact (ok.inj h).symm
  | none =>
    rw [hwrite] at h
    unfold BufferTransaction.baseBuffer at h
    unfold BufferTransaction.baseText
    rcases hstate : tx.base.get? id with _ | state
    · rw [hstate] at h
      cases h
    rw [hstate] at h
    dsimp only at h
    by_cases hdeleted : state.deleted = true
    · rw [if_pos hdeleted] at h
      cases h
    · rw [if_neg hdeleted] at h
      exact (ok.inj h).symm

theorem Edited.bufferWrite {pending : PendingBuffer}
    (h : Edited start id base tx) (hbase : start.get? id = some base)
    (hwrite : tx.bufferWrite id = .ok pending) : Edits base pending := by
  unfold BufferTransaction.bufferWrite at hwrite
  split at hwrite
  · cases hwrite
  rcases h.writes with hnil | ⟨known, hlist, hedits⟩
  · rw [get?_of_list_nil hnil] at hwrite
    unfold BufferTransaction.baseBuffer at hwrite
    rw [h.base_eq, hbase] at hwrite
    dsimp only at hwrite
    split at hwrite
    · cases hwrite
    rename_i state hstate
    obtain rfl := ok.inj hwrite
    split at hstate
    · cases hstate
    obtain rfl := ok.inj hstate
    exact ⟨rfl, rfl, rfl, rfl, rfl⟩
  · rw [get?_of_list_singleton hlist] at hwrite
    dsimp only at hwrite
    split at hwrite
    · cases hwrite
    exact ok.inj hwrite ▸ hedits

theorem Edited.replaceBuffer {tx' : BufferTransaction} {e : TextEdit} (h : Edited start id base tx)
    (hbase : start.get? id = some base)
    (hreplace : tx.replaceBuffer id e.start e.stop e.text e.supply = .ok tx') :
    Edited start id base tx' := by
  rcases BufferTransaction.replaceBuffer_cases hreplace with rfl |
    ⟨previous, next, pending, hprevious, hpending, hnext, rfl⟩
  · exact h
  · obtain rfl := bufferText_eq_view hprevious
    rw [h.baseText hbase] at hnext
    obtain ⟨hmetadata, hpbase, hdeleted, hcompact, hreverted⟩ := h.bufferWrite hbase hpending
    refine ⟨h.base_eq, .inr ⟨{ pending with text := next, touched := true }, ?_,
      ⟨hmetadata, hpbase, hdeleted, hcompact, hreverted⟩⟩, ?_⟩
    · dsimp only [SortedMap.insert]
      rcases h.writes with hnil | ⟨known, hlist, -⟩
      · rw [hnil]
        rfl
      · rw [hlist]
        simp [insertEntry]
    · have hview : BufferTransaction.view { tx with
          bufferWrites := tx.bufferWrites.insert id
            { pending with text := next, touched := true } } id =
          next := by
        unfold BufferTransaction.view
        rw [SortedMap.get?_insert_self]
      rw [hview]
      exact h.shows.replace hnext (Supply.bound_le_above _ _)

/-- **A transaction that edits one buffer.** -/
theorem Edited.edit (hbase : start.get? id = some base) : ∀ {edits : List TextEdit}
    {tx : BufferTransaction}, Edited start id base tx → Edited start id base (tx.edit id edits)
  | [], _, h => h
  | e :: edits, tx, h => by
    unfold BufferTransaction.edit
    split
    · exact Edited.edit hbase h
    · next hreplace => exact Edited.edit hbase (h.replaceBuffer hbase hreplace)

end Views

/-! ## One commit -/

section Steps

variable {relations : List RelationMetadata} {start states next : BufferStates} {id : Identity}
  {base latest : BufferState} {tx : BufferTransaction} {supply : Supply} {changes : List BufferChange}

/-- The state that a commit publishes. -/
def published (latest : BufferState) (text : Text) : BufferState :=
  { latest with revision := latest.revision + 1, text := text }

/-- What it publishes. -/
def publishedChange (latest : BufferState) (d : Delta) : BufferChange :=
  ⟨latest.metadata, latest.revision, latest.revision + 1, d, latest.deleted⟩

variable {pending : PendingBuffer}

/-- A delta is published, unless it is empty. -/
theorem publish_spec {result : BufferResult} {s : Materializing}
    (hedits : Edits base pending) (hlatest : s.states.get? id = some latest)
    (hmetadata : latest.metadata = base.metadata) (hdeleted : latest.deleted = false)
    (hrevision : result.baseRevision = latest.revision)
    (h : s.publish id pending result = .ok (next, changes)) :
    (result.delta = Delta.empty ∧ next = s.states ∧ changes = s.changes) ∨
      (next = s.states.insert (published latest result.text) ∧
        changes = s.changes ++ [publishedChange latest result.delta]) := by
  unfold Materializing.publish at h
  dsimp only at h
  rw [hedits.base, hedits.deleted, hedits.compact, hedits.reverted, hedits.metadata, hlatest] at h
  simp only [Option.isSome_some, Option.isNone_some, Bool.true_and, Bool.and_true, Bool.not_false,
    Bool.false_and, Bool.or_false, Option.elim_some, Bool.false_eq_true, if_false] at h
  split at h
  · next hempty =>
    obtain ⟨rfl, rfl⟩ := Prod.mk.inj (ok.inj h)
    refine .inl ⟨?_, rfl, rfl⟩
    unfold Delta.isEmpty at hempty
    rw [List.isEmpty_iff] at hempty
    cases hdelta : result.delta
    rw [hdelta] at hempty
    exact congrArg Delta.mk hempty
  split at h
  · cases h
  rename_i revision hrev
  split at h
  · cases h
  rename_i epoch hepoch
  obtain ⟨rfl, rfl⟩ := Prod.mk.inj (ok.inj h)
  refine .inr ?_
  unfold Materializing.checkedAdd at hrev hepoch
  split at hrev
  · split at hepoch
    · obtain rfl := Option.some.inj hrev
      obtain rfl := Option.some.inj hepoch
      unfold published publishedChange
      rw [hmetadata, hdeleted, hrevision]
      exact ⟨rfl, rfl⟩
    · cases hepoch
  · cases hrev

/-- Edits that were moved behind published ones. -/
theorem rebased_spec {result : BufferResult} {s : Materializing}
    {budget : DeltaBudget} (h : s.rebased supply id pending base latest = .ok (result, budget)) :
    result.baseRevision = latest.revision ∧ ∃ own concurrent,
      Delta.Of base.text pending.text own ∧ Delta.Of base.text latest.text concurrent ∧
      own.transformAfter concurrent = .ok result.delta ∧
      result.delta.apply latest.text (supply.above base.text) = .ok result.text := by
  unfold Materializing.rebased at h
  split at h
  · cases h
  rename_i own _ hown
  split at h
  · cases h
  rename_i concurrent _ hconcurrent
  split at h
  · cases h
  · cases h
  · next d htransform =>
    split at h
    · cases h
    rename_i text happly
    obtain ⟨rfl, -⟩ := Prod.mk.inj (ok.inj h)
    exact ⟨rfl, own, concurrent, Delta.between_spec hown, Delta.between_spec hconcurrent,
      htransform, happly⟩

/-- A write that edits, with the `Span` policy. -/
theorem edited_spec {result : BufferResult} {s : Materializing}
    {budget : DeltaBudget} (hedits : Edits base pending) (hpolicy : base.metadata.conflict = .span)
    (hlatest : s.states.get? id = some latest)
    (h : s.edited supply id pending base = .ok (result, budget)) :
    latest.deleted = false ∧ result.baseRevision = latest.revision ∧
      ((latest.revision = base.revision ∧ Delta.Of base.text pending.text result.delta ∧
        result.text = pending.text) ∨ (latest.revision ≠ base.revision ∧ ∃ own concurrent,
        Delta.Of base.text pending.text own ∧ Delta.Of base.text latest.text concurrent ∧
        own.transformAfter concurrent = .ok result.delta ∧
        result.delta.apply latest.text (supply.above base.text) = .ok result.text)) := by
  unfold Materializing.edited at h
  rw [hlatest] at h
  dsimp only at h
  split at h
  · cases h
  split at h
  · cases h
  rename_i hconflict
  have hdeleted : latest.deleted = false := by
    cases hlat : latest.deleted with
    | false => rfl
    | true => exact absurd (by rw [hlat]; rfl) hconflict
  refine ⟨hdeleted, ?_⟩
  rw [if_neg (by rw [hedits.compact]; exact nofun)] at h
  split at h
  · next hrevision =>
    split at h
    · cases h
    rename_i d hcomplete
    obtain ⟨rfl, -⟩ := Prod.mk.inj (ok.inj h)
    exact ⟨rfl, .inl ⟨hrevision, Delta.complete_spec hcomplete, rfl⟩⟩
  · next hrevision =>
    rw [if_neg (by rw [hedits.metadata, hpolicy]; exact nofun)] at h
    obtain ⟨hresult, hrebased⟩ := rebased_spec h
    exact ⟨hresult, .inr ⟨hrevision, hrebased⟩⟩

/-- The one write of a transaction. -/
theorem materializeBuffers_singleton (hedits : Edits base pending)
    (hlist : tx.bufferWrites.list = [(id, pending)])
    (h : materializeBuffers relations states supply tx = .ok (next, changes)) :
    ∃ result budget, (⟨states, [], .default⟩ : Materializing).edited supply id pending base =
        .ok (result, budget) ∧
      (⟨states, [], .default⟩ : Materializing).publish id pending result = .ok (next, changes) := by
  unfold materializeBuffers at h
  rw [hlist] at h
  unfold Materializing.writeAll Materializing.write Materializing.result at h
  rw [hedits.base] at h
  dsimp only at h
  rcases hresult : (⟨states, [], .default⟩ : Materializing).edited supply id pending base with _ | res
  · rw [hresult] at h
    cases h
  obtain ⟨result, budget⟩ := res
  rw [hresult] at h
  dsimp only at h
  rcases hpublish : (⟨states, [], .default⟩ : Materializing).publish id pending result with _ | pair
  · rw [hpublish] at h
    cases h
  obtain ⟨next', changes'⟩ := pair
  rw [hpublish] at h
  obtain ⟨rfl, rfl⟩ := Prod.mk.inj (ok.inj h)
  exact ⟨result, budget, rfl, hpublish⟩

/-- **What a commit of a transaction that edits one buffer can do.** -/
theorem materializeBuffers_cases (htx : Edited start id base tx) (hbase : start.get? id = some base)
    (hpolicy : base.metadata.conflict = .span) (hlatest : states.get? id = some latest)
    (hmetadata : latest.metadata = base.metadata)
    (h : materializeBuffers relations states supply tx = .ok (next, changes)) :
    (next = states ∧ changes = [] ∧ Delta.Of base.text (tx.view id) Delta.empty) ∨
      (latest.revision = base.revision ∧ ∃ d, Delta.Of base.text (tx.view id) d ∧
        next = states.insert (published latest (tx.view id)) ∧ changes = [publishedChange latest d]) ∨
      (latest.revision ≠ base.revision ∧ ∃ own concurrent d text,
        Delta.Of base.text (tx.view id) own ∧ Delta.Of base.text latest.text concurrent ∧
        own.transformAfter concurrent = .ok d ∧
        d.apply latest.text (supply.above base.text) = .ok text ∧
        ((d = Delta.empty ∧ next = states ∧ changes = []) ∨
          (next = states.insert (published latest text) ∧ changes = [publishedChange latest d]))) := by
  rcases htx.writes with hnil | ⟨pending, hlist, hedits⟩
  · -- no edit of the transaction has changed anything
    unfold materializeBuffers at h
    rw [hnil] at h
    obtain ⟨rfl, rfl⟩ := Prod.mk.inj (ok.inj h)
    refine .inl ⟨rfl, rfl, trivial, nofun, ?_⟩
    have hview : tx.view id = base.text := by
      unfold BufferTransaction.view
      rw [get?_of_list_nil hnil]
      exact htx.baseText hbase
    rw [hview, Text.tokens_self]
    rfl
  · have hview : tx.view id = pending.text := by
      unfold BufferTransaction.view
      rw [get?_of_list_singleton hlist]
    obtain ⟨result, budget, hresult, hpublish⟩ := materializeBuffers_singleton hedits hlist h
    obtain ⟨hdeleted, hrevision, hcases⟩ := edited_spec hedits hpolicy hlatest hresult
    have hpublished := publish_spec hedits hlatest hmetadata hdeleted hrevision hpublish
    rw [hview]
    rcases hcases with ⟨hsame, hof, htext⟩ | ⟨hmoved, own, concurrent, hown, hother,
      htransform, happly⟩
    · rcases hpublished with ⟨hempty, hnext, hchanges⟩ | ⟨hnext, hchanges⟩
      · exact .inl ⟨hnext, hchanges, hempty ▸ hof⟩
      · exact .inr (.inl ⟨hsame, result.delta, hof, htext ▸ hnext, hchanges⟩)
    · exact .inr (.inr ⟨hmoved, own, concurrent, result.delta, result.text, hown, hother, htransform,
        happly, hpublished⟩)

/-- The published state, behind the one that the transactions started from. -/
structure Latest (base latest : BufferState) : Prop where
  metadata : latest.metadata = base.metadata
  le : base.revision ≤ latest.revision
  eq : latest.revision = base.revision → latest = base

theorem Latest.published (h : Latest base latest) (text : Text) :
    Latest base (published latest text) :=
  ⟨h.metadata, h.le.trans (Nat.le_succ _), fun heq =>
    absurd heq (Nat.ne_of_gt (Nat.lt_succ_of_le h.le))⟩

theorem get?_insert_published (hlatest : states.get? id = some latest) (text : Text) :
    (states.insert (published latest text)).get? id = some (published latest text) := by
  have hid := states.keyed id latest hlatest
  have hself := states.get?_insert_self (published latest text)
  rwa [show (published latest text).metadata.id = id from hid] at hself

/-- A commit keeps the state behind the one that the transactions started from. -/
theorem Latest.step (htx : Edited start id base tx) (hbase : start.get? id = some base)
    (hpolicy : base.metadata.conflict = .span) (hlatest : states.get? id = some latest)
    (hbehind : Latest base latest)
    (h : materializeBuffers relations states supply tx = .ok (next, changes)) :
    ∃ latest', next.get? id = some latest' ∧ Latest base latest' := by
  rcases materializeBuffers_cases htx hbase hpolicy hlatest hbehind.metadata h with ⟨rfl, -, -⟩ |
    ⟨-, d, -, rfl, -⟩ | ⟨-, own, concurrent, d, text, -, -, -, -, ⟨-, rfl, -⟩ | ⟨rfl, -⟩⟩
  · exact ⟨latest, hlatest, hbehind⟩
  · exact ⟨_, get?_insert_published hlatest _, hbehind.published _⟩
  · exact ⟨latest, hlatest, hbehind⟩
  · exact ⟨_, get?_insert_published hlatest _, hbehind.published _⟩

/-- **What is published makes the new text of the old one**, in one commit. -/
theorem publishes_step (htx : Edited start id base tx) (hbase : start.get? id = some base)
    (hpolicy : base.metadata.conflict = .span) (hlatest : states.get? id = some latest)
    (hbehind : Latest base latest)
    (h : materializeBuffers relations states supply tx = .ok (next, changes)) :
    Publishes states ⟨next, changes⟩ := by
  have hid := states.keyed id latest hlatest
  rcases materializeBuffers_cases htx hbase hpolicy hlatest hbehind.metadata h with ⟨-, rfl, -⟩ |
    ⟨hsame, d, hof, rfl, rfl⟩ | ⟨-, own, concurrent, d, text, -, -, -, happly,
      ⟨-, -, rfl⟩ | ⟨rfl, rfl⟩⟩
  · exact nofun
  · obtain rfl := hbehind.eq hsame
    intro change hchange
    rw [mem_singleton.mp hchange]
    dsimp only [publishedChange]
    rw [hid]
    exact ⟨latest, _, hlatest, get?_insert_published hlatest _, fun s => hof.apply htx.shows s⟩
  · exact nofun
  · intro change hchange
    rw [mem_singleton.mp hchange]
    dsimp only [publishedChange]
    rw [hid]
    exact ⟨latest, _, hlatest, get?_insert_published hlatest _, fun s =>
      Delta.applyAll_supply s happly⟩

/-- The commits of a run, one after the other. -/
theorem commitAll_cons {order : List (BufferTransaction × Supply)} {commits : List BufferCommit}
    (h : commitAll relations states ((tx, supply) :: order) = .ok commits) : ∃ next changes rest,
      materializeBuffers relations states supply tx = .ok (next, changes) ∧
      commitAll relations next order = .ok rest ∧ commits = ⟨next, changes⟩ :: rest := by
  unfold commitAll at h
  split at h
  · cases h
  rename_i next changes hmaterialize
  split at h
  · cases h
  rename_i rest hrest
  exact ⟨next, changes, rest, hmaterialize, hrest, (ok.inj h).symm⟩

theorem publishesAll_of_run (hbase : start.get? id = some base)
    (hpolicy : base.metadata.conflict = .span) : ∀ {order : List (BufferTransaction × Supply)}
    {states : BufferStates} {latest : BufferState} {commits : List BufferCommit},
    (∀ step ∈ order, Edited start id base step.1) → states.get? id = some latest → Latest base latest →
    commitAll relations states order = .ok commits → PublishesAll states commits
  | [], _, _, _, _, _, _, h => by
    rw [← ok.inj h]
    trivial
  | (tx, supply) :: order, states, latest, commits, htxs, hlatest, hbehind, h => by
    obtain ⟨next, changes, rest, hstep, hrest, rfl⟩ := commitAll_cons h
    have htx := htxs _ mem_cons_self
    obtain ⟨latest', hlatest', hbehind'⟩ := hbehind.step htx hbase hpolicy hlatest hstep
    exact ⟨publishes_step htx hbase hpolicy hlatest hbehind hstep, publishesAll_of_run hbase hpolicy
      (fun step hmem => htxs step (mem_cons_of_mem _ hmem)) hlatest' hbehind' hrest⟩

end Steps

/-! ## The edit of all transactions -/

section Converge

variable {relations : List RelationMetadata} {start states next : BufferStates} {id : Identity}
  {base latest : BufferState} {tx : BufferTransaction} {supply : Supply} {changes : List BufferChange}
  {done : List BufferTransaction}

open Classical in
/-- The replacements of a view. -/
noncomputable def ownOf (base view : Text) : List Replacement :=
  if h : ∃ d, Delta.Of base view d then h.choose.replacements else []

theorem ownOf_eq {base view : Text} {d : Delta} (h : Delta.Of base view d) :
    ownOf base view = d.replacements := by
  have hex : ∃ d, Delta.Of base view d := ⟨d, h⟩
  unfold ownOf
  rw [dif_pos hex, hex.choose_spec.unique h]

/-- The replacements of a transaction. -/
noncomputable def BufferTransaction.own (tx : BufferTransaction) (base : Text) (id : Identity) :
    List Replacement := ownOf base (tx.view id)

/-- What transactions make of a base together, if they are apart. -/
noncomputable def editOf (base : Text) (id : Identity) (txs : List BufferTransaction) : Edit Char :=
  txs.foldl (fun e tx => e.putAll (tx.own base id)) Edit.empty

/-- The transactions do not touch one place. -/
def TxApart (base : Text) (id : Identity) (t u : BufferTransaction) : Prop :=
  ∀ r ∈ t.own base id, ∀ s ∈ u.own base id, Edit.Apart r s

/-- The transactions do not insert at one position. -/
def NoTie (id : Identity) (t u : BufferTransaction) : Prop :=
  ∀ p ∈ t.insertionsOf id, p ∉ u.insertionsOf id

theorem editOf_append (base : Text) (id : Identity) (txs : List BufferTransaction)
    (tx : BufferTransaction) :
    editOf base id (txs ++ [tx]) = (editOf base id txs).putAll (tx.own base id) := foldl_concat ..

variable {txs : List BufferTransaction}

/-- A gap into which nobody inserts. -/
theorem editOf_gap {base : Text} {p : ℕ}
    (h : ∀ t ∈ txs, ∀ r ∈ t.own base id, r.start = r.stop → p ≠ r.start) :
    (editOf base id txs).gap p = [] := by
  induction txs using List.reverseRecOn with
  | nil => rfl
  | append_singleton txs t ih =>
    rw [editOf_append, Edit.putAll_gap_apply (h t (by simp))]
    exact ih fun u hu => h u (mem_append_left _ hu)

/-- An item that somebody replaces. -/
theorem editOf_cell {base : Text} {i : ℕ} {t : BufferTransaction}
    {r : Replacement} (ht : t ∈ txs) (hr : r ∈ t.own base id) (hi : r.start ≤ i ∧ i < r.stop) :
    (editOf base id txs).cell i ≠ none := by
  induction txs using List.reverseRecOn with
  | nil => exact nomatch ht
  | append_singleton txs u ih =>
    rw [editOf_append]
    refine Edit.putAll_cell_ne_none ?_
    rcases mem_append.mp ht with ht | ht
    · exact .inl (ih ht)
    · rw [← mem_singleton.mp ht]
      exact .inr ⟨r, hr, hi⟩

/-- **The edit does not depend on the order.** -/
theorem editOf_perm {base : Text} {txs' : List BufferTransaction} (hperm : txs.Perm txs')
    (hapart : txs.Pairwise (TxApart base id)) : editOf base id txs = editOf base id txs' := by
  refine hperm.foldl_eq' (fun t ht u hu e => ?_) Edit.empty
  have hsymm : Std.Symm (TxApart base id) := ⟨fun t u h r hr s hs => (h s hs r hr).symm⟩
  by_cases heq : t = u
  · rw [heq]
  · exact Edit.putAll_comm (hapart.forall ht hu heq)

/-- An insertion of a transaction is one that its view shows. -/
theorem mem_insertionsOf {d : Delta} {r : Replacement} (htx : Edited start id base tx)
    (hbase : start.get? id = some base) (hof : Delta.Of base.text (tx.view id) d)
    (hr : r ∈ d.replacements) (hempty : r.start = r.stop) : r.start ∈ tx.insertionsOf id := by
  unfold BufferTransaction.insertionsOf insertions
  rw [htx.baseText hbase, ← hof.render]
  exact mem_insertions hof.spaced hof.solid hr hempty

/-- **What the commits so far have made.** -/
structure Inv (start : BufferStates) (id : Identity) (base : BufferState)
    (done : List BufferTransaction) (latest : BufferState) : Prop where
  behind : Latest base latest
  shows : base.text.Shows latest.text
  tokens : base.text.tokens latest.text = (editOf base.text id done).render base.text.len
  untouched : latest.revision = base.revision → editOf base.text id done = Edit.empty
  known : ∀ t ∈ done, Edited start id base t ∧ ∃ d, Delta.Of base.text (t.view id) d
  apart : done.Pairwise (TxApart base.text id)

theorem Inv.init (start : BufferStates) (id : Identity) (base : BufferState) :
    Inv start id base [] base where
  behind := ⟨rfl, le_rfl, fun _ => rfl⟩
  shows := base.text.shows_self
  tokens := by
    rw [Text.tokens_self]
    exact (Edit.render_empty _).symm
  untouched := fun _ => rfl
  known := nofun
  apart := List.Pairwise.nil

/-- A new transaction finds its gaps empty. -/
theorem Inv.gap {d : Delta} (h : Inv start id base done latest) (hbase : start.get? id = some base)
    (htx : Edited start id base tx) (hof : Delta.Of base.text (tx.view id) d)
    (htie : ∀ t ∈ done, NoTie id t tx) :
    ∀ r ∈ d.replacements, r.start = r.stop → (editOf base.text id done).gap r.start = [] := by
  intro r hr hempty
  refine editOf_gap fun t ht s hs hempty' heq => ?_
  obtain ⟨hedited, d', hof'⟩ := h.known t ht
  unfold BufferTransaction.own at hs
  rw [ownOf_eq hof'] at hs
  refine htie t ht s.start (mem_insertionsOf hedited hbase hof' hs hempty') ?_
  rw [← heq]
  exact mem_insertionsOf htx hbase hof hr hempty

/-- A transaction that finds its items is apart from those before it. -/
theorem Inv.txApart {d : Delta} (h : Inv start id base done latest) (hbase : start.get? id = some base)
    (htx : Edited start id base tx) (hof : Delta.Of base.text (tx.view id) d)
    (htie : ∀ t ∈ done, NoTie id t tx)
    (hcells : ∀ r ∈ d.replacements, ∀ i, r.start ≤ i → i < r.stop →
      (editOf base.text id done).cell i = none) :
    ∀ t ∈ done, TxApart base.text id t tx := by
  intro t ht r hr s hs
  have hs' := hs
  unfold BufferTransaction.own at hs'
  rw [ownOf_eq hof] at hs'
  refine ⟨fun hempty hempty' heq => ?_, fun _ _ i hi hi' hboth => ?_⟩
  · obtain ⟨hedited, d', hof'⟩ := h.known t ht
    have hr' := hr
    unfold BufferTransaction.own at hr'
    rw [ownOf_eq hof'] at hr'
    refine htie t ht r.start (mem_insertionsOf hedited hbase hof' hr' hempty) ?_
    rw [heq]
    exact mem_insertionsOf htx hbase hof hs' hempty'
  · exact editOf_cell ht hr ⟨hi, hi'⟩ (hcells s hs' i hboth.1 hboth.2)

/-- The next transaction, whose edit has been made. -/
theorem Inv.snoc {d : Delta} {latest' : BufferState} (h : Inv start id base done latest)
    (hbase : start.get? id = some base) (htx : Edited start id base tx)
    (hof : Delta.Of base.text (tx.view id) d) (htie : ∀ t ∈ done, NoTie id t tx)
    (hcells : ∀ r ∈ d.replacements, ∀ i, r.start ≤ i → i < r.stop →
      (editOf base.text id done).cell i = none)
    (hbehind : Latest base latest') (hshows : base.text.Shows latest'.text)
    (htokens : base.text.tokens latest'.text =
      ((editOf base.text id done).putAll d.replacements).render base.text.len)
    (huntouched : latest'.revision = base.revision →
      (editOf base.text id done).putAll d.replacements = Edit.empty) :
    Inv start id base (done ++ [tx]) latest' := by
  have hedit : editOf base.text id (done ++ [tx]) =
      (editOf base.text id done).putAll d.replacements := by
    rw [editOf_append]
    unfold BufferTransaction.own
    rw [ownOf_eq hof]
  refine ⟨hbehind, hshows, ?_, ?_, fun t ht => ?_, ?_⟩
  · rw [hedit, htokens]
  · rwa [hedit]
  · rcases mem_append.mp ht with ht | ht
    · exact h.known t ht
    · rw [mem_singleton.mp ht]
      exact ⟨htx, d, hof⟩
  · refine pairwise_append.mpr ⟨h.apart, pairwise_singleton _ _, fun t ht u hu => ?_⟩
    rw [mem_singleton.mp hu]
    exact h.txApart hbase htx hof htie hcells t ht

/-- **A commit adds the edit of its transaction.** -/
theorem Inv.commit (h : Inv start id base done latest) (htx : Edited start id base tx)
    (hbase : start.get? id = some base) (hpolicy : base.metadata.conflict = .span)
    (htie : ∀ t ∈ done, NoTie id t tx) (hlatest : states.get? id = some latest)
    (hcommit : materializeBuffers relations states supply tx = .ok (next, changes)) :
    ∃ latest', next.get? id = some latest' ∧ Inv start id base (done ++ [tx]) latest' := by
  rcases materializeBuffers_cases htx hbase hpolicy hlatest h.behind.metadata hcommit with
    ⟨rfl, -, hof⟩ | ⟨hsame, d, hof, rfl, -⟩ |
    ⟨hmoved, own, concurrent, d, text, hof, hother, htransform, happly, hpublished⟩
  · exact ⟨latest, hlatest, h.snoc hbase htx hof htie nofun h.behind h.shows h.tokens h.untouched⟩
  · -- the first edit: the view is published as it is
    have hempty := h.untouched hsame
    refine ⟨_, get?_insert_published hlatest _, h.snoc hbase htx hof htie (fun r _ i _ _ => ?_)
      (h.behind.published _) htx.shows ?_ fun heq => ?_⟩
    · rw [hempty]
      rfl
    · rw [hempty, render_putAll_empty hof.spaced]
      exact hof.render.symm
    · exact absurd heq (Nat.ne_of_gt (Nat.lt_succ_of_le h.behind.le))
  · -- a later one is moved behind what was published
    have hrender := hother.render.trans h.tokens
    obtain ⟨hclear, hsplice⟩ := Delta.transformAfter_spec htransform hof.spaced hother.spaced hrender
      (h.gap hbase htx hof htie)
    have hcells : ∀ r ∈ own.replacements, ∀ i, r.start ≤ i → i < r.stop →
        (editOf base.text id done).cell i = none := fun r hr i hi hi' => by
      have hstop := (hof.spaced.le_stop r hr).2
      exact (length_before_of_free hother.spaced hrender (by omega)
        (free_of_clear (hclear r hr) hother.spaced (by omega) hi hi')).1
    obtain ⟨htokens, -, hshows⟩ := Delta.applyAll_spec base.text (Supply.bound_le_above _ _) happly
    rw [h.tokens, hsplice] at htokens
    rcases hpublished with ⟨rfl, rfl, -⟩ | ⟨rfl, -⟩
    · refine ⟨latest, hlatest, h.snoc hbase htx hof htie hcells h.behind h.shows ?_ fun heq =>
        absurd heq hmoved⟩
      rwa [h.tokens]
    · exact ⟨_, get?_insert_published hlatest _,
        h.snoc hbase htx hof htie hcells (h.behind.published _)
        (hshows h.shows) htokens fun heq => absurd heq (Nat.ne_of_gt (Nat.lt_succ_of_le h.behind.le))⟩

/-- **After all commits, the edit is that of all transactions.** -/
theorem Inv.run (hbase : start.get? id = some base) (hpolicy : base.metadata.conflict = .span) :
    ∀ {order : List (BufferTransaction × Supply)} {done : List BufferTransaction}
      {states : BufferStates} {latest : BufferState} {commits : List BufferCommit},
    Inv start id base done latest → (∀ step ∈ order, Edited start id base step.1) →
    (done ++ order.map Prod.fst).Pairwise (NoTie id) → states.get? id = some latest →
    commitAll relations states order = .ok commits →
    ∃ latest', (finalStates states commits).get? id = some latest' ∧
      Inv start id base (done ++ order.map Prod.fst) latest'
  | [], done, states, latest, _, h, _, _, hlatest, hrun => by
    rw [← ok.inj hrun, map_nil, append_nil]
    exact ⟨latest, hlatest, h⟩
  | (tx, supply) :: order, done, states, latest, _, h, htxs, htie, hlatest, hrun => by
    obtain ⟨next, changes, rest, hstep, hrest, rfl⟩ := commitAll_cons hrun
    rw [map_cons] at htie
    have hties := (pairwise_append.mp htie).2.2
    obtain ⟨latest', hlatest', h'⟩ := h.commit (htxs _ mem_cons_self) hbase hpolicy
      (fun t ht => hties t ht tx mem_cons_self) hlatest hstep
    obtain ⟨final, hfinal, hinv⟩ := Inv.run hbase hpolicy h'
      (fun step hmem => htxs step (mem_cons_of_mem _ hmem))
      (by rwa [append_assoc, singleton_append]) hlatest' hrest
    rw [append_assoc, singleton_append] at hinv
    refine ⟨final, ?_, hinv⟩
    rw [← hfinal]
    cases rest with
    | nil => rfl
    | cons c rest => rfl

end Converge

/-! ## Orders of commits -/

section Orders

variable {relations : List RelationMetadata} {start : BufferStates} {id : Identity}
    {base : BufferState}

/-- A transaction that begins on some states and edits one buffer. -/
def editing (start : BufferStates) (id : Identity) (edits : List TextEdit) : BufferTransaction :=
  (BufferTransaction.new start).edit id edits

/-- The transactions commit in an order, each with the addresses that it gets. -/
def commitEdits (relations : List RelationMetadata) (start : BufferStates) (id : Identity)
    (order : List (List TextEdit × Supply)) : Except KernelError (List BufferCommit) :=
  commitAll relations start (order.map fun step => (editing start id step.1, step.2))

/-- The text of a buffer after all commits. -/
def finalText (start : BufferStates) (id : Identity) (commits : List BufferCommit) :
    Option (List Char) :=
  ((finalStates start commits).get? id).map fun state => state.text.toText

theorem edited_editing (hbase : start.get? id = some base) (edits : List TextEdit) :
    Edited start id base (editing start id edits) := (Edited.new hbase).edit hbase

/-- A run ends in the edit of its transactions. -/
theorem finalText_of_run (hbase : start.get? id = some base) (hpolicy : base.metadata.conflict = .span)
    {order : List (List TextEdit × Supply)} {commits : List BufferCommit}
    (hrun : commitEdits relations start id order = .ok commits)
    (htie : (order.map fun step => editing start id step.1).Pairwise (NoTie id)) :
    finalText start id commits = some (((editOf base.text id
        (order.map fun step => editing start id step.1)).render base.text.len).map base.text.value) ∧
      (order.map fun step => editing start id step.1).Pairwise (TxApart base.text id) := by
  have hmap : (order.map fun step => (editing start id step.1, step.2)).map Prod.fst =
      order.map fun step => editing start id step.1 := map_map
  obtain ⟨latest, hlatest, hinv⟩ := Inv.run hbase hpolicy (Inv.init start id base) (by
      intro step hstep
      obtain ⟨x, -, rfl⟩ := mem_map.mp hstep
      exact edited_editing hbase x.1)
    (by rwa [nil_append, hmap]) hbase hrun
  rw [nil_append, hmap] at hinv
  refine ⟨?_, hinv.apart⟩
  unfold finalText
  rw [hlatest, Option.map_some, hinv.shows, hinv.tokens]

/-- **Concurrent edits converge** when no two transactions insert at one position, and what each commit
publishes makes its text of the one before. -/
theorem span_edits_converge (hbase : start.get? id = some base)
    (hpolicy : base.metadata.conflict = .span) {order order' : List (List TextEdit × Supply)}
    {commits commits' : List BufferCommit} (hperm : (order.map Prod.fst).Perm (order'.map Prod.fst))
    (hrun : commitEdits relations start id order = .ok commits)
    (hrun' : commitEdits relations start id order' = .ok commits')
    (htie : (order.map fun step => editing start id step.1).Pairwise (NoTie id)) :
    finalText start id commits = finalText start id commits' ∧
      PublishesAll start commits ∧ PublishesAll start commits' := by
  have hperm' : (order.map fun step => editing start id step.1).Perm
      (order'.map fun step => editing start id step.1) := by
    have := hperm.map (editing start id)
    rwa [map_map, map_map] at this
  have hsymm : ∀ {t u : BufferTransaction}, NoTie id t u → NoTie id u t := fun h p hp hp' => h p hp' hp
  obtain ⟨htext, hapart⟩ := finalText_of_run hbase hpolicy hrun htie
  obtain ⟨htext', -⟩ := finalText_of_run hbase hpolicy hrun' (hperm'.pairwise htie hsymm)
  have hpublishes : ∀ {order : List (List TextEdit × Supply)} {commits : List BufferCommit},
      commitEdits relations start id order = .ok commits → PublishesAll start commits := by
    intro order commits hrun
    refine publishesAll_of_run hbase hpolicy (fun step hstep => ?_) hbase
      ⟨rfl, le_rfl, fun _ => rfl⟩ hrun
    obtain ⟨x, -, rfl⟩ := mem_map.mp hstep
    exact edited_editing hbase x.1
  refine ⟨?_, hpublishes hrun, hpublishes hrun'⟩
  rw [htext, htext', editOf_perm hperm' hapart]

/-! ### Runs -/

/-- A buffer with some text. -/
def note (text : List Char) : BufferState where
  metadata := ⟨.ofByte 7, ⟨1⟩, .durable, .span⟩
  revision := 1
  text := Text.fromText text ⟨0, 0⟩
  deleted := false
  structureEpoch := 0

def notes (text : List Char) : BufferStates := BufferStates.empty.insert (note text)

/-- A transaction with one replacement. -/
def oneEdit (start stop : ℕ) (text : List Char) : List TextEdit × Supply :=
  ([⟨start, stop, text, ⟨1, 10⟩⟩], ⟨2, 20⟩)

/-- The text of a run, if all commit. -/
def finalText? (text : List Char) (order : List (List TextEdit × Supply)) : Option (List Char) :=
  match commitEdits [] (notes text) (note text).metadata.id order with
  | .ok commits => finalText (notes text) (note text).metadata.id commits
  | .error _ => none

theorem exists_commits (text : List Char) (order : List (List TextEdit × Supply)) {final : List Char}
    (h : finalText? text order = some final) : ∃ commits,
      commitEdits [] (notes text) (note text).metadata.id order = .ok commits ∧
      finalText (notes text) (note text).metadata.id commits = some final := by
  unfold finalText? at h
  split at h
  · next commits hcommits => exact ⟨commits, hcommits, h⟩
  · cases h

theorem get?_notes (text : List Char) :
    (notes text).get? (note text).metadata.id = some (note text) := BufferStates.get?_insert_self _ _

/-- Two orders in which an insertion and a replacement behind it commit. -/
theorem span_edits_converge_insertion : ∃ commits commits',
    commitEdits [] (notes ['x']) (note ['x']).metadata.id [oneEdit 0 0 ['a'], oneEdit 0 1 ['B']] =
      .ok commits ∧
    commitEdits [] (notes ['x']) (note ['x']).metadata.id [oneEdit 0 1 ['B'], oneEdit 0 0 ['a']] =
      .ok commits' ∧
    finalText (notes ['x']) (note ['x']).metadata.id commits =
      finalText (notes ['x']) (note ['x']).metadata.id commits' := by
  obtain ⟨commits, hcommits, -⟩ : ∃ commits, _ ∧ _ = some ['a', 'B'] := exists_commits ['x']
    [oneEdit 0 0 ['a'], oneEdit 0 1 ['B']] (by decide +kernel)
  obtain ⟨commits', hcommits', -⟩ : ∃ commits, _ ∧ _ = some ['a', 'B'] := exists_commits ['x']
    [oneEdit 0 1 ['B'], oneEdit 0 0 ['a']] (by decide +kernel)
  refine ⟨commits, commits', hcommits, hcommits', ?_⟩
  have hperm : ([oneEdit 0 0 ['a'], oneEdit 0 1 ['B']].map Prod.fst).Perm
      ([oneEdit 0 1 ['B'], oneEdit 0 0 ['a']].map Prod.fst) := List.Perm.swap ..
  refine (span_edits_converge (get?_notes ['x']) rfl hperm hcommits hcommits' ?_).1
  refine pairwise_cons.mpr ⟨fun t ht => ?_, pairwise_singleton _ _⟩
  rw [mem_singleton.mp ht]
  unfold NoTie
  decide +kernel

/-- **An insertion tie that a replacement hides**: two transactions insert at the beginning, one
replaces the first character, and the order of the commits shows in the text. -/
theorem insertion_tie : ∃ commits commits',
    (notes ['x']).get? (note ['x']).metadata.id = some (note ['x']) ∧
    (note ['x']).metadata.conflict = .span ∧
    ([oneEdit 0 0 ['a'], oneEdit 0 1 ['B'], oneEdit 0 0 ['c']].map Prod.fst).Perm
      ([oneEdit 0 0 ['c'], oneEdit 0 1 ['B'], oneEdit 0 0 ['a']].map Prod.fst) ∧
    commitEdits [] (notes ['x']) (note ['x']).metadata.id
      [oneEdit 0 0 ['a'], oneEdit 0 1 ['B'], oneEdit 0 0 ['c']] = .ok commits ∧
    commitEdits [] (notes ['x']) (note ['x']).metadata.id
      [oneEdit 0 0 ['c'], oneEdit 0 1 ['B'], oneEdit 0 0 ['a']] = .ok commits' ∧
    finalText (notes ['x']) (note ['x']).metadata.id commits = some ['c', 'a', 'B'] ∧
    finalText (notes ['x']) (note ['x']).metadata.id commits' = some ['a', 'c', 'B'] := by
  obtain ⟨commits, hcommits, hfinal⟩ : ∃ commits, _ ∧ _ = some ['c', 'a', 'B'] := exists_commits ['x']
    [oneEdit 0 0 ['a'], oneEdit 0 1 ['B'], oneEdit 0 0 ['c']] (by decide +kernel)
  obtain ⟨commits', hcommits', hfinal'⟩ : ∃ commits, _ ∧ _ = some ['a', 'c', 'B'] :=
    exists_commits ['x']
    [oneEdit 0 0 ['c'], oneEdit 0 1 ['B'], oneEdit 0 0 ['a']] (by decide +kernel)
  have hperm := (reverse_perm
    [oneEdit 0 0 ['c'], oneEdit 0 1 ['B'], oneEdit 0 0 ['a']]).map Prod.fst
  exact ⟨commits, commits', get?_notes ['x'], rfl, hperm, hcommits, hcommits', hfinal, hfinal'⟩

end Orders

end Mica
