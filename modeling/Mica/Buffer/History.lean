import Mica.Buffer.Growth

/-!
# Buffer/History — the versions that a kernel remembers, and what reverts and compactions do

A kernel keeps the last versions of the buffers that were published last.  What it remembers of a
buffer was published (`BufferHistory.Recalls`).  A revert or a compaction closes the write of a
buffer, so that nothing else of the transaction changes it (`BufferTransaction.Closed`).
-/

open SortedList SpanEdit SortedMap
open Except (ok.inj)

namespace Mica

/-! ## The ring of a buffer -/

/-- `HISTORY_DEPTH`. -/
def historyDepth : ℕ := 32

/-- `HISTORY_BUFFERS`. -/
def historyBuffers : ℕ := 256

structure Ring where
  versions : List BufferState
  touched : ℕ

structure BufferHistory where
  rings : SortedMap Identity Ring
  clock : ℕ

namespace BufferHistory

/-- `BufferHistory::default`. -/
def empty : BufferHistory := ⟨SortedMap.empty, 0⟩

/-- The buffer that was touched first. -/
def oldest : List (Identity × Ring) → Option Identity
  | [] => none
  | e :: rest =>
    match oldest rest with
    | none => some e.1
    | some id =>
      if rest.any (fun e' => e'.1 = id && e'.2.touched < e.2.touched) then some id else some e.1

/-- Room for the ring of one more buffer. -/
def evict (h : BufferHistory) (id : Identity) : SortedMap Identity Ring :=
  if (h.rings.get? id).isNone && historyBuffers ≤ h.rings.list.length then
    match oldest h.rings.list with
    | none => h.rings
    | some oldest => h.rings.erase oldest
  else h.rings

/-- A version at the end of a ring; it takes the place of one with its revision. -/
def pushVersion (versions : List BufferState) (state : BufferState) : List BufferState :=
  let kept := if versions.getLast?.any fun last => last.revision = state.revision then
    versions.dropLast else versions
  if historyDepth < (kept ++ [state]).length then (kept ++ [state]).tail else kept ++ [state]

/-- `BufferHistory::record`. -/
def record (h : BufferHistory) (state : BufferState) : BufferHistory :=
  if state.deleted then { h with rings := h.rings.erase state.metadata.id }
  else
    let rings := h.evict state.metadata.id
    let clock := min (h.clock + 1) (2 ^ 64 - 1)
    let versions := ((rings.get? state.metadata.id).map Ring.versions).getD []
    ⟨rings.insert state.metadata.id ⟨pushVersion versions state, clock⟩, clock⟩

/-- `BufferHistory::lookup`. -/
def lookup (h : BufferHistory) (id : Identity) (revision : ℕ) : Option BufferState :=
  (h.rings.get? id).bind fun ring => ring.versions.find? fun state => state.revision = revision

/-- `Arc::ptr_eq` of a buffer in two snapshots: a state that is published anew has another revision or
another structure epoch. -/
def ptrEq (before after : Option BufferState) : Bool :=
  match before, after with
  | some a, some b => a.revision = b.revision && a.structureEpoch = b.structureEpoch
  | _, _ => false

/-- What `try_publish_with_buffer_history` records of the buffers that it is given. -/
def publish (before after : BufferStates) : List Identity → BufferHistory → BufferHistory
  | [], h => h
  | id :: ids, h =>
    if ptrEq (before.get? id) (after.get? id) then publish before after ids h
    else
      let h := (before.get? id).elim h h.record
      let h := (after.get? id).elim h h.record
      publish before after ids h

/-- Every version that is remembered was published. -/
def Recalls (h : BufferHistory) (published : List BufferStates) : Prop :=
  ∀ id ring, h.rings.get? id = some ring → ∀ state ∈ ring.versions,
    ∃ states ∈ published, states.get? id = some state

variable {h : BufferHistory} {published : List BufferStates} {state : BufferState} {id : Identity}

theorem recalls_empty (published : List BufferStates) : empty.Recalls published := nofun

theorem Recalls.mono {published' : List BufferStates} (hrecalls : h.Recalls published)
    (hsub : published ⊆ published') : h.Recalls published' := fun id ring hring state hstate =>
  (hrecalls id ring hring state hstate).imp fun _ hstates => ⟨hsub hstates.1, hstates.2⟩

theorem get?_of_evict {ring : Ring} {other : Identity}
    (hring : (h.evict other).get? id = some ring) : h.rings.get? id = some ring := by
  unfold evict at hring
  split at hring
  · split at hring
    · exact hring
    · rw [get?_erase] at hring
      split at hring
      · cases hring
      exact hring
  · exact hring

theorem mem_pushVersion {versions : List BufferState} {x : BufferState}
    (hx : x ∈ pushVersion versions state) : x ∈ versions ∨ x = state := by
  have hkept : ∀ kept : List BufferState, (∀ y ∈ kept, y ∈ versions) →
      x ∈ (if historyDepth < (kept ++ [state]).length then (kept ++ [state]).tail
        else kept ++ [state]) → x ∈ versions ∨ x = state := by
    intro kept hsub hmem
    have hall : x ∈ kept ++ [state] := by
      split at hmem
      · exact List.mem_of_mem_tail hmem
      · exact hmem
    exact (List.mem_append.mp hall).imp (hsub x) List.mem_singleton.mp
  unfold pushVersion at hx
  dsimp only at hx
  by_cases hlast : (versions.getLast?.any fun last => decide (last.revision = state.revision)) = true
  · rw [if_pos hlast] at hx
    exact hkept _ (fun _ hy => (List.dropLast_sublist versions).subset hy) hx
  · rw [if_neg hlast] at hx
    exact hkept _ (fun _ hy => hy) hx

theorem Recalls.record (hrecalls : h.Recalls published)
    (hstate : ∃ states ∈ published, states.get? state.metadata.id = some state) :
    (h.record state).Recalls published := by
  intro id ring hring x hx
  unfold BufferHistory.record at hring
  split at hring
  · rw [get?_erase] at hring
    split at hring
    · cases hring
    exact hrecalls id ring hring x hx
  dsimp only at hring
  rw [get?_insert] at hring
  split at hring
  · next hid =>
    subst hid
    obtain rfl := Option.some.inj hring
    rcases mem_pushVersion hx with hold | rfl
    · rcases hget : (h.evict state.metadata.id).get? state.metadata.id with _ | old
      · rw [hget] at hold
        cases hold
      rw [hget] at hold
      exact hrecalls _ old (get?_of_evict hget) x hold
    · exact hstate
  · exact hrecalls id ring (get?_of_evict hring) x hx

/-- **What is remembered was published**, before or now. -/
theorem Recalls.publish {before after : BufferStates} (hbefore : before ∈ published)
    (hafter : after ∈ published) : ∀ {ids : List Identity} {h : BufferHistory}, h.Recalls published →
      (BufferHistory.publish before after ids h).Recalls published
  | [], _, hrecalls => hrecalls
  | id :: ids, h, hrecalls => by
    have helim : ∀ states ∈ published, ∀ h : BufferHistory, h.Recalls published →
        ((states.get? id).elim h h.record).Recalls published := by
      intro states hstates h hrecalls
      rcases hget : states.get? id with _ | state
      · exact hrecalls
      refine hrecalls.record ⟨states, hstates, ?_⟩
      rwa [states.keyed id state hget]
    unfold BufferHistory.publish
    split
    · exact Recalls.publish hbefore hafter hrecalls
    · exact Recalls.publish hbefore hafter (helim after hafter _ (helim before hbefore _ hrecalls))

/-- What a lookup finds. -/
theorem Recalls.lookup (hrecalls : h.Recalls published) {revision : ℕ}
    (hlookup : h.lookup id revision = some state) :
    state.revision = revision ∧ ∃ states ∈ published, states.get? id = some state := by
  unfold BufferHistory.lookup at hlookup
  rcases hring : h.rings.get? id with _ | ring
  · rw [hring] at hlookup
    cases hlookup
  rw [hring, Option.bind_some] at hlookup
  exact ⟨by simpa using List.find?_some hlookup,
    hrecalls id ring hring state (List.mem_of_find?_eq_some hlookup)⟩

end BufferHistory

/-! ## Reverting -/

/-- `BufferRevertStatus`. -/
inductive BufferRevertStatus where
  | staged
  | stale
  | unknown
  deriving DecidableEq

namespace BufferTransaction

/-- The status that `revert_buffer` returns with its transaction. -/
def revertStatus (tx : BufferTransaction) (id : Identity) (revision expected : ℕ)
    (historical : Option BufferState) : Except KernelError BufferRevertStatus :=
  match tx.bufferRevision id with
  | .error e => .error e
  | .ok current =>
    if expected ≠ current then .ok .stale
    else if current < revision then .ok .unknown
    else if revision = current then .ok .staged
    else if tx.isApplied id then .error (.buffer id .alreadyApplied)
    else
      match historical with
      | none => .ok .unknown
      | some _ =>
        match tx.bufferWrite id with
        | .error e => .error e
        | .ok _ => .ok .staged

variable {tx tx' : BufferTransaction} {id : Identity} {supply : Supply}

/-- **A revert to an earlier revision that is staged** has closed the write of the buffer. -/
theorem revert_staged (supply : Supply) {revision expected : ℕ} {historical : Option BufferState}
    (hstatus : tx.revertStatus id revision expected historical = .ok .staged)
    (hlt : revision < expected) :
    ∃ state old pending, historical = some old ∧ tx.base.get? id = some state ∧
      state.revision = expected ∧ tx.bufferWrite id = .ok pending ∧
      tx.revertBuffer id revision expected historical supply = .ok { tx with
        bufferWrites := tx.bufferWrites.insert id { pending with
          text := Text.fromText old.text.toText (supply.above (tx.baseText id))
          reverted := true, «sealed» := true } } := by
  unfold revertStatus at hstatus
  unfold revertBuffer
  rcases hrevision : tx.bufferRevision id with _ | current
  · rw [hrevision] at hstatus
    cases hstatus
  rw [hrevision] at hstatus
  dsimp only at hstatus ⊢
  by_cases hexpected : expected ≠ current
  · rw [if_pos hexpected] at hstatus
    cases hstatus
  obtain rfl := not_not.mp hexpected
  rw [if_neg hexpected, if_neg (by omega), if_neg (by omega)] at hstatus
  rw [if_neg (by omega)]
  by_cases happlied : tx.isApplied id = true
  · rw [if_pos happlied] at hstatus
    cases hstatus
  rw [if_neg happlied] at hstatus ⊢
  cases historical with
  | none => exact nomatch hstatus
  | some old =>
    dsimp only at hstatus ⊢
    unfold updateWrite
    rcases hwrite : tx.bufferWrite id with _ | pending
    · rw [hwrite] at hstatus
      cases hstatus
    obtain ⟨state, hstate, hcurrent⟩ : ∃ state, tx.base.get? id = some state ∧
        state.revision = expected := by
      unfold bufferRevision at hrevision
      split at hrevision
      · cases hrevision
      cases hbase : tx.base.get? id with
      | none =>
        rw [hbase] at hrevision
        have hzero : (0 : ℕ) = expected := ok.inj hrevision
        omega
      | some state =>
        rw [hbase] at hrevision
        exact ⟨state, rfl, ok.inj hrevision⟩
    exact ⟨state, old, pending, rfl, hstate, hcurrent, rfl, rfl⟩

/-! ## Closed writes -/

/-- The write of a buffer is closed. -/
def Closed (tx : BufferTransaction) (id : Identity) (pending : PendingBuffer) : Prop :=
  tx.bufferWrites.get? id = some pending ∧ pending.sealed = true

variable {pending : PendingBuffer} {other : Identity}

theorem Closed.insert (h : tx.Closed id pending) {write : PendingBuffer} (hne : other ≠ id) :
    Closed { tx with bufferWrites := tx.bufferWrites.insert other write } id pending :=
  ⟨(get?_insert_of_ne hne.symm).trans h.1, h.2⟩

/-- A closed write is not begun again. -/
theorem Closed.bufferWrite_eq (h : tx.Closed id pending) :
    tx.bufferWrite id = .error (.buffer id .alreadyApplied) := by
  unfold BufferTransaction.bufferWrite ensureBufferMutable
  rw [h.1]
  dsimp only
  rw [if_pos h.2]

theorem Closed.updateWrite (h : tx.Closed id pending) {f : PendingBuffer → PendingBuffer}
    (hupdate : tx.updateWrite other f = .ok tx') : tx'.Closed id pending ∧ tx'.base = tx.base := by
  unfold BufferTransaction.updateWrite at hupdate
  split at hupdate
  · cases hupdate
  rename_i write hwrite
  have hne : other ≠ id := by
    rintro rfl
    rw [h.bufferWrite_eq] at hwrite
    cases hwrite
  obtain rfl := ok.inj hupdate
  exact ⟨h.insert hne, rfl⟩

theorem Closed.createBuffer (h : tx.Closed id pending) {relations : List RelationMetadata}
    {metadata : BufferMetadata} (hcreate : tx.createBuffer relations metadata = .ok tx') :
    tx'.Closed id pending ∧ tx'.base = tx.base := by
  unfold BufferTransaction.createBuffer at hcreate
  split at hcreate
  · cases hcreate
  rename_i hfree
  have hne : metadata.id ≠ id := by
    rintro rfl
    refine hfree ?_
    rw [h.1]
    simp
  obtain rfl := ok.inj hcreate
  exact ⟨h.insert hne, rfl⟩

theorem Closed.replaceBuffer (h : tx.Closed id pending) {start stop : ℕ} {text : List Char}
    (hreplace : tx.replaceBuffer other start stop text supply = .ok tx') :
    tx'.Closed id pending ∧ tx'.base = tx.base := by
  rcases replaceBuffer_cases hreplace with rfl | ⟨_, next, write, -, hwrite, -, rfl⟩
  · exact ⟨h, rfl⟩
  have hne : other ≠ id := by
    rintro rfl
    rw [h.bufferWrite_eq] at hwrite
    cases hwrite
  exact ⟨h.insert hne, rfl⟩

theorem Closed.applyBuffer (h : tx.Closed id pending) {expected : ℕ} {edits : List Replacement}
    {reserved : Except KernelError Unit}
    (happly : tx.applyBuffer other expected edits supply reserved = .ok tx') :
    tx'.Closed id pending ∧ tx'.base = tx.base := by
  unfold BufferTransaction.applyBuffer at happly
  split at happly
  · cases happly
  split at happly
  · exact ok.inj happly ▸ ⟨h, rfl⟩
  split at happly
  · cases happly
  split at happly
  · cases happly
  split at happly
  · cases happly
  split at happly
  · cases happly
  exact h.updateWrite happly

theorem Closed.compactBuffer (h : tx.Closed id pending)
    (hcompact : tx.compactBuffer other supply = .ok tx') :
    tx'.Closed id pending ∧ tx'.base = tx.base := by
  unfold BufferTransaction.compactBuffer at hcompact
  split at hcompact
  · cases hcompact
  split at hcompact
  · exact ok.inj hcompact ▸ ⟨h, rfl⟩
  split at hcompact
  · cases hcompact
  split at hcompact
  · cases hcompact
  exact h.updateWrite hcompact

theorem Closed.revertBuffer (h : tx.Closed id pending) {revision expected : ℕ}
    {historical : Option BufferState}
    (hrevert : tx.revertBuffer other revision expected historical supply = .ok tx') :
    tx'.Closed id pending ∧ tx'.base = tx.base := by
  unfold BufferTransaction.revertBuffer at hrevert
  split at hrevert
  · cases hrevert
  split at hrevert
  · exact ok.inj hrevert ▸ ⟨h, rfl⟩
  split at hrevert
  · cases hrevert
  split at hrevert
  · exact ok.inj hrevert ▸ ⟨h, rfl⟩
  · exact h.updateWrite hrevert

/-- **A compaction that is staged** has closed the write of the buffer, with the text as it was. -/
theorem compact_closed {live : BufferStates} (hsound : tx.Sound live) {state : BufferState}
    (hbase : tx.base.get? id = some state) (h : tx.compactBuffer id supply = .ok tx') :
    tx'.base = tx.base ∧ ∃ pending, tx'.Closed id pending ∧ pending.compact = true ∧
      pending.deleted = false ∧ pending.base = some state ∧
      pending.text.toText = state.text.toText := by
  unfold BufferTransaction.compactBuffer at h
  split at h
  · cases h
  rw [if_neg (by rw [hbase]; exact nofun)] at h
  split at h
  · cases h
  rename_i happlied
  split at h
  · cases h
  rename_i text htext
  obtain rfl := bufferText_of_not_applied hsound (Bool.eq_false_iff.mpr happlied) hbase htext
  unfold BufferTransaction.updateWrite at h
  split at h
  · cases h
  rename_i write hwrite
  have hbegun := hsound.bufferWrite hwrite
  obtain rfl := ok.inj h
  exact ⟨rfl, _, ⟨get?_insert_self, rfl⟩, rfl, hbegun.kept,
    hbegun.base_eq.trans hbase, Text.toText_fromText _ _⟩

end BufferTransaction

end Mica
