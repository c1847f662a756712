import Mica.Buffer.Client
import Mica.Kernel.BufferMirror

/-!
# Kernel/ClientTransaction — applies that carry a token

`apply_buffer` closes the write of a buffer, and with a token it reserves an entry for what comes of
it. A closed write stays as it is (`RootTransaction.keeps_act`), and its buffer is there when the
transaction is published (`live_materializeBuffers`).  When the transaction ends, every token gets a
result.
-/

open SortedList List SortedMap
open Except (ok.inj)

namespace Mica

/-! ## Closed writes -/

namespace BufferTransaction

variable {tx tx' : BufferTransaction} {id : Identity}

/-- The closed writes are as they were. -/
def Keeps (tx tx' : BufferTransaction) : Prop :=
  ∀ id pending, tx.bufferWrites.get? id = some pending → pending.sealed = true →
    tx'.bufferWrites.get? id = some pending

theorem Keeps.refl (tx : BufferTransaction) : tx.Keeps tx := fun _ _ h _ => h

/-- A write that is begun or gone on with is not closed. -/
theorem not_sealed_of_bufferWrite {pending known : PendingBuffer} (h : tx.bufferWrite id = .ok pending)
    (hknown : tx.bufferWrites.get? id = some known) : known.sealed = false := by
  unfold bufferWrite ensureBufferMutable at h
  rw [hknown] at h
  dsimp only at h
  by_cases hclosed : known.sealed = true
  · rw [if_pos hclosed] at h
    cases h
  · exact Bool.eq_false_iff.mpr hclosed

theorem keeps_insert {pending : PendingBuffer}
    (h : ∀ known, tx.bufferWrites.get? id = some known → known.sealed = false) :
    tx.Keeps { tx with bufferWrites := tx.bufferWrites.insert id pending } := by
  intro id' known hknown hclosed
  have hne : id' ≠ id := by
    rintro rfl
    cases hclosed.symm.trans (h known hknown)
  exact (get?_insert_of_ne hne).trans hknown

theorem keeps_updateWrite {f : PendingBuffer → PendingBuffer} (h : tx.updateWrite id f = .ok tx') :
    tx.Keeps tx' := by
  unfold updateWrite at h
  split at h
  · cases h
  rename_i hwrite
  obtain rfl := ok.inj h
  exact keeps_insert fun _ => not_sealed_of_bufferWrite hwrite

theorem keeps_replaceBuffer {start stop : ℕ} {text : List Char} {supply : Supply}
    (h : tx.replaceBuffer id start stop text supply = .ok tx') : tx.Keeps tx' := by
  rcases replaceBuffer_cases h with rfl | ⟨_, _, _, -, hwrite, -, rfl⟩
  · exact .refl _
  · exact keeps_insert fun _ => not_sealed_of_bufferWrite hwrite

theorem keeps_createBuffer {relations : List RelationMetadata} {metadata : BufferMetadata}
    (h : tx.createBuffer relations metadata = .ok tx') : tx.Keeps tx' := by
  unfold createBuffer at h
  split at h
  · cases h
  rename_i hnew
  obtain rfl := ok.inj h
  refine keeps_insert fun known hknown => absurd ?_ hnew
  rw [hknown]
  simp

theorem keeps_applyBuffer {expected : ℕ} {edits : List Replacement} {supply : Supply}
    {reserved : Except KernelError Unit}
    (h : tx.applyBuffer id expected edits supply reserved = .ok tx') : tx.Keeps tx' := by
  unfold applyBuffer at h
  split at h
  · cases h
  split at h
  · exact ok.inj h ▸ .refl _
  split at h
  · cases h
  split at h
  · cases h
  split at h
  · cases h
  split at h
  · cases h
  exact keeps_updateWrite h

theorem keeps_compactBuffer {supply : Supply} (h : tx.compactBuffer id supply = .ok tx') :
    tx.Keeps tx' := by
  unfold compactBuffer at h
  split at h
  · cases h
  split at h
  · exact ok.inj h ▸ .refl _
  split at h
  · cases h
  split at h
  · cases h
  exact keeps_updateWrite h

theorem keeps_revertBuffer {revision expected : ℕ} {historical : Option BufferState} {supply : Supply}
    (h : tx.revertBuffer id revision expected historical supply = .ok tx') : tx.Keeps tx' := by
  unfold revertBuffer at h
  split at h
  · cases h
  split at h
  · exact ok.inj h ▸ .refl _
  split at h
  · cases h
  split at h
  · exact ok.inj h ▸ .refl _
  · exact keeps_updateWrite h

/-- A buffer that is there and not yet edited can be written, so that no token is reserved in vain. -/
theorem exists_bufferWrite (happlied : tx.isApplied id = false) {text : Text}
    (htext : tx.bufferText id = .ok text) :
    ∃ pending, tx.bufferWrite id = .ok pending ∧ pending.deleted = false := by
  unfold isApplied at happlied
  unfold bufferText at htext
  unfold bufferWrite ensureBufferMutable
  cases hget : tx.bufferWrites.get? id with
  | some known =>
    rw [hget] at htext happlied
    rw [Option.any_some, Bool.or_eq_false_iff] at happlied
    dsimp only at htext ⊢
    rw [happlied.2, if_neg nofun]
    by_cases hdeleted : known.deleted = true
    · rw [if_pos hdeleted] at htext
      cases htext
    · dsimp only
      rw [if_neg hdeleted]
      exact ⟨known, rfl, Bool.eq_false_iff.mpr hdeleted⟩
  | none =>
    rw [hget] at htext
    dsimp only at htext ⊢
    rcases hbase : tx.baseBuffer id with _ | state
    · rw [hbase] at htext
      cases htext
    exact ⟨_, rfl, rfl⟩

end BufferTransaction

/-- **No step of a transaction touches a closed write.** -/
theorem RootTransaction.keeps_act {M : Type → Type} [ByteMap M] (floor : ℕ) (tx : RootTransaction M)
    (action : TransactionAction M) : tx.buffers.Keeps (tx.act floor action).buffers := by
  have hbuffers : ∀ result : Except KernelError BufferTransaction,
      (∀ buffers, result = .ok buffers → tx.buffers.Keeps buffers) →
      tx.buffers.Keeps (tx.withBuffers result).buffers := by
    intro result hresult
    rcases tx.withBuffers_cases result with heq | ⟨buffers, hok, heq⟩
    · rw [heq]
      exact .refl _
    · rw [heq]
      exact hresult buffers hok
  cases action with
  | assert relation t => exact .refl _
  | retract relation t => exact .refl _
  | replaceFunctional relation t => exact .refl _
  | scan derived relation bindings => exact .refl _
  | createBuffer metadata => exact hbuffers _ fun _ => BufferTransaction.keeps_createBuffer
  | replaceBuffer id start stop text supply =>
    exact hbuffers _ fun _ => BufferTransaction.keeps_replaceBuffer
  | deleteBuffer id => exact hbuffers _ fun _ => BufferTransaction.keeps_updateWrite
  | applyBuffer id expected edits supply reserved =>
    exact hbuffers _ fun _ => BufferTransaction.keeps_applyBuffer
  | compactBuffer id supply => exact hbuffers _ fun _ => BufferTransaction.keeps_compactBuffer
  | revertBuffer id revision expected historical supply =>
    exact hbuffers _ fun _ => BufferTransaction.keeps_revertBuffer

/-! ## What is published of a write -/

namespace Materializing

variable {relations : List RelationMetadata} {live base : BufferStates} {s s' : Materializing}
  {id : Identity} {pending : PendingBuffer} {supply : Supply}

/-- A write that is not a deletion leaves its buffer there. -/
theorem live_write (hpending : pending.Sound live base id) (hkept : pending.deleted = false)
    (h : s.write relations supply id pending = .ok s') :
    ∃ state, s'.states.get? id = some state ∧ state.deleted = false := by
  obtain ⟨result, hpublish, hresult⟩ := write_cases h
  rcases publish_cases hpublish with ⟨hbase, -, -, -, hstates, -⟩ |
    ⟨state, hstates, hmetadata, -, hdeleted, -⟩
  · rcases hresult with ⟨hnone, -⟩ | ⟨old, budget, -, hedited⟩
    · rw [hnone] at hbase
      cases hbase
    · obtain ⟨latest, hlatest, hlive, -⟩ := edited_cases hedited
      exact ⟨latest, by rw [hstates, hlatest], hlive⟩
  · have hkey : state.metadata.id = id := by rw [hmetadata, hpending.key]
    refine ⟨state, ?_, hdeleted.trans hkept⟩
    rw [hstates, ← hkey, s.states.get?_insert_self]

theorem get?_write_of_ne (hpending : pending.Sound live base id) {other : Identity} (hne : other ≠ id)
    (h : s.write relations supply id pending = .ok s') :
    s'.states.get? other = s.states.get? other := by
  obtain ⟨result, hpublish, -⟩ := write_cases h
  rcases publish_cases hpublish with ⟨-, -, -, -, hstates, -⟩ | ⟨state, hstates, hmetadata, -⟩
  · rw [hstates]
  · rw [hstates]
    exact s.states.get?_insert_of_ne state (by rw [hmetadata, hpending.key]; exact hne)

theorem get?_writeAll_of_notMem {tx : BufferTransaction} (htx : tx.Sound live) {other : Identity} :
    ∀ {writes : List (Identity × PendingBuffer)} {s s' : Materializing},
      (∀ e ∈ writes, tx.bufferWrites.get? e.1 = some e.2) → (∀ e ∈ writes, other ≠ e.1) →
      s.writeAll relations supply writes = .ok s' → s'.states.get? other = s.states.get? other
  | [], s, s', _, _, h => by rw [ok.inj h]
  | (id, pending) :: writes, s, s', hwrites, hother, h => by
    unfold writeAll at h
    split at h
    · cases h
    rename_i s₁ hwrite
    obtain ⟨hfirst, hrest⟩ := forall_mem_cons.mp hother
    rw [get?_writeAll_of_notMem htx (fun e he => hwrites e (mem_cons_of_mem _ he)) hrest h,
      get?_write_of_ne (htx id pending (hwrites _ mem_cons_self)) hfirst hwrite]

theorem live_writeAll {tx : BufferTransaction} (htx : tx.Sound live)
    (hkept : pending.deleted = false) :
    ∀ {writes : List (Identity × PendingBuffer)} {s s' : Materializing},
      (∀ e ∈ writes, tx.bufferWrites.get? e.1 = some e.2) →
      (writes.Pairwise fun e f => e.1 < f.1) → (id, pending) ∈ writes →
      s.writeAll relations supply writes = .ok s' →
      ∃ state, s'.states.get? id = some state ∧ state.deleted = false
  | (id', pending') :: writes, s, s', hwrites, hsorted, hmem, h => by
    unfold writeAll at h
    split at h
    · cases h
    rename_i s₁ hwrite
    obtain ⟨hlt, hsorted⟩ := pairwise_cons.mp hsorted
    have hrest := fun e he => hwrites e (mem_cons_of_mem _ he)
    rcases mem_cons.mp hmem with heq | hmem
    · -- the later writes are of other buffers
      obtain ⟨rfl, rfl⟩ := Prod.mk.inj heq
      obtain ⟨state, hstate, hlive⟩ :=
        live_write (htx id pending (hwrites _ mem_cons_self)) hkept hwrite
      refine ⟨state, ?_, hlive⟩
      rw [get?_writeAll_of_notMem htx hrest (fun e he => (hlt e he).ne) h, hstate]
    · exact live_writeAll htx hkept hrest hsorted hmem h

end Materializing

/-- **A buffer that is written and not deleted is there when the transaction is published.** -/
theorem live_materializeBuffers {relations : List RelationMetadata} {live current next : BufferStates}
    {tx : BufferTransaction} {supply : Supply} {changes : List BufferChange} (htx : tx.Sound live)
    (h : materializeBuffers relations current supply tx = .ok (next, changes)) {id : Identity}
    {pending : PendingBuffer} (hget : tx.bufferWrites.get? id = some pending)
    (hkept : pending.deleted = false) : ∃ state, next.get? id = some state ∧
      state.deleted = false := by
  unfold materializeBuffers at h
  split at h
  · cases h
  rename_i s hwrites
  obtain ⟨rfl, -⟩ := Prod.mk.inj (ok.inj h)
  exact Materializing.live_writeAll htx hkept (fun e he => get?_eq_some.mpr he)
    tx.bufferWrites.sorted (get?_eq_some.mp hget) hwrites

/-! ## Tokens -/

/-- A transaction, with the tokens of its writes. -/
structure ClientTransaction (M : Type → Type) [ByteMap M] where
  root : RootTransaction M
  tokens : SortedMap Identity Token

namespace ClientTransaction

variable {M : Type → Type} [ByteMap M]

/-- `begin`. -/
def new (root : Root M) : ClientTransaction M := ⟨RootTransaction.new root, SortedMap.empty⟩

/-- `apply_buffer`, with the table that it leaves. -/
def applyBuffer (floor : ℕ) (results : ClientResults) (tx : ClientTransaction M) (id : Identity)
    (expected : ℕ) (edits : List Replacement) (supply : Supply) (token : Option Token) :
    ClientTransaction M × ClientResults × Except KernelError BufferApplyStatus :=
  let buffers := tx.root.buffers
  match buffers.bufferRevision id with
  | .error e => (tx, results, .error e)
  | .ok revision =>
    if revision ≠ expected then (tx, results, .ok .stale)
    else if buffers.isApplied id then (tx, results, .error (.buffer id .alreadyApplied))
    else
      match buffers.bufferText id with
      | .error e => (tx, results, .error e)
      | .ok text =>
        match BufferTransaction.applyEdits id
            ((supply.atLeast floor).above (buffers.baseText id)) edits text with
        | .error e => (tx, results, .error e)
        | .ok text =>
          match token.elim (results, .ok ()) fun token => results.reserve token id expected with
          | (results, .error e) => (tx, results, .error e)
          | (results, .ok ()) =>
            match buffers.updateWrite id fun pending =>
                { pending with text := text, «sealed» := true } with
            | .error e => (tx, results, .error e)
            | .ok buffers =>
              (⟨{ tx.root with buffers := buffers },
                token.elim (tx.tokens.erase id) fun token => tx.tokens.insert id token⟩,
                results, .ok .staged)

/-- The writes with a token, in the order of the buffers. -/
def tagged (tx : ClientTransaction M) : List (Identity × Token × PendingBuffer) :=
  tx.root.buffers.bufferWrites.list.filterMap fun e =>
    (tx.tokens.get? e.1).map fun token => (e.1, token, e.2)

/-- `complete_buffer_applies`: the results, or nothing where the `expect` fails.  `rest` is what an
exhausted search leaves of the budget. -/
def completeApplies (retained : Delta → ℕ) (rest : Identity → DeltaBudget) (next : BufferStates) :
    DeltaBudget → List (Identity × Token × PendingBuffer) → Option (List BufferApplyResult)
  | _, [] => some []
  | budget, (id, token, pending) :: tagged =>
    match (BufferTransaction.new next).baseBuffer id with
    | .error _ => none
    | .ok state =>
      match Delta.between (pending.base.elim Text.empty BufferState.text) state.text budget with
      | .error _ => (completeApplies retained rest next (rest id) tagged).map
          fun queue => ⟨token, id, state.revision, .resync⟩ :: queue
      | .ok (applied, budget) => (completeApplies retained rest next budget tagged).map
          fun queue => ⟨token, id, state.revision, .ok applied (retained applied)⟩ :: queue

/-- What a failure means for a client. -/
def failOutcome : KernelError → BufferApplyOutcome
  | .conflict _ => .conflict
  | .buffer _ (.conflict _ _) => .conflict
  | .buffer _ (.delta .budgetExceeded) => .resync
  | .buffer _ (.delta .foreignProvenance) => .resync
  | .buffer _ (.structureConflict _ _) => .resync
  | _ => .aborted

/-- `fail_buffer_applies`. -/
def failApplies (failure : KernelError) (current : BufferStates)
    (tagged : List (Identity × Token × PendingBuffer)) : List BufferApplyResult :=
  tagged.map fun e =>
    ⟨e.2.1, e.1, (current.get? e.1).elim 0 BufferState.revision, failOutcome failure⟩

/-- The results of a transaction that is dropped. -/
def dropApplies (tagged : List (Identity × Token × PendingBuffer)) : List BufferApplyResult :=
  tagged.map fun e => ⟨e.2.1, e.1, e.2.2.base.elim 0 BufferState.revision, .aborted⟩

/-! ### What the applies do -/

variable {tx : ClientTransaction M}

/-- **What an apply that is staged has done.** -/
structure Stages (floor : ℕ) (results : ClientResults) (tx : ClientTransaction M) (id : Identity)
    (expected : ℕ) (edits : List Replacement) (supply : Supply) (token : Option Token)
    (tx' : ClientTransaction M) (results' : ClientResults) : Prop where
  root : tx'.root = tx.root.act floor (.applyBuffer id expected edits supply (.ok ()))
  tokens : tx'.tokens = token.elim (tx.tokens.erase id) fun token => tx.tokens.insert id token
  revision : (tx.root.buffers.base.get? id).elim 0 BufferState.revision = expected
  free : tx.root.buffers.isApplied id = false
  write : ∃ pending : PendingBuffer, pending.sealed = true ∧ pending.deleted = false ∧
    tx'.root.buffers.bufferWrites = tx.root.buffers.bufferWrites.insert id pending
  untagged : token = none → results' = results
  reserved : ∀ t, token = some t → results.get? t = none ∧ results'.Valid ∧
    ∃ kept, results.Evicts kept ∧ results'.entries = ⟨t, id, expected, .pending⟩ :: kept.entries

/-- **Everything that an apply can do**: nothing but to make room in the table, or to close a write. -/
theorem applyBuffer_cases (floor : ℕ) {results : ClientResults} (hresults : results.Valid)
    (tx : ClientTransaction M) (id : Identity) (expected : ℕ) (edits : List Replacement)
    (supply : Supply) (token : Option Token) :
    (∃ results' answer, tx.applyBuffer floor results id expected edits supply token =
        (tx, results', answer) ∧ answer ≠ .ok .staged ∧ results'.Valid ∧ results.Evicts results') ∨
      ∃ tx' results', tx.applyBuffer floor results id expected edits supply token =
        (tx', results', .ok .staged) ∧
          Stages floor results tx id expected edits supply token tx' results' := by
  have hsame : ∀ answer : Except KernelError BufferApplyStatus, answer ≠ .ok .staged →
      ∃ results' answer', (tx, results, answer) = (tx, results', answer') ∧ answer' ≠ .ok .staged ∧
        results'.Valid ∧ results.Evicts results' :=
    fun answer hanswer => ⟨results, answer, rfl, hanswer, hresults, .refl _⟩
  unfold applyBuffer
  dsimp only
  rcases hrevision : tx.root.buffers.bufferRevision id with _ | revision
  · exact .inl (hsame _ nofun)
  dsimp only
  by_cases hstale : revision ≠ expected
  · rw [if_pos hstale]
    exact .inl (hsame _ nofun)
  rw [if_neg hstale]
  by_cases happlied : tx.root.buffers.isApplied id = true
  · rw [if_pos happlied]
    exact .inl (hsame _ nofun)
  rw [if_neg happlied]
  rcases htext : tx.root.buffers.bufferText id with _ | text
  · exact .inl (hsame _ nofun)
  dsimp only
  rcases hedits : BufferTransaction.applyEdits id
      ((supply.atLeast floor).above (tx.root.buffers.baseText id)) edits text with _ | text'
  · exact .inl (hsame _ nofun)
  have hfree := Bool.eq_false_iff.mpr happlied
  obtain ⟨pending, hwrite, hkept⟩ := BufferTransaction.exists_bufferWrite hfree htext
  have hexpected :
      (tx.root.buffers.base.get? id).elim 0 BufferState.revision = expected := by
    unfold BufferTransaction.bufferRevision at hrevision
    split at hrevision
    · cases hrevision
    exact (ok.inj hrevision).trans (not_not.mp hstale)
  have hroot : tx.root.act floor (.applyBuffer id expected edits supply (.ok ())) =
      { tx.root with buffers := { tx.root.buffers with
          bufferWrites := tx.root.buffers.bufferWrites.insert id
            { pending with text := text', «sealed» := true } } } := by
    unfold RootTransaction.act BufferTransaction.applyBuffer BufferTransaction.updateWrite
    dsimp only
    rw [hrevision]
    dsimp only
    rw [if_neg hstale, if_neg happlied, htext]
    dsimp only
    rw [hedits, hwrite]
    rfl
  unfold BufferTransaction.updateWrite
  rw [hwrite]
  cases token with
  | none =>
    refine .inr ⟨_, results, rfl, hroot.symm, rfl, hexpected, hfree, ?_, fun _ => rfl, nofun⟩
    exact ⟨{ pending with text := text', «sealed» := true }, rfl, hkept, rfl⟩
  | some t =>
    dsimp only [Option.elim_some]
    rcases hresults.reserve_cases t id expected with
      ⟨e, herr, hvalid, hkeeps⟩ | ⟨hok, hnone, hvalid, kept, hkeeps, hentries⟩
    · rw [← Prod.mk.eta (p := results.reserve t id expected), herr]
      exact .inl ⟨_, _, rfl, nofun, hvalid, hkeeps⟩
    · rw [← Prod.mk.eta (p := results.reserve t id expected), hok]
      refine .inr ⟨_, _, rfl, hroot.symm, rfl, hexpected, hfree, ?_, nofun, ?_⟩
      · exact ⟨{ pending with text := text', «sealed» := true }, rfl, hkept, rfl⟩
      · intro t' ht'
        obtain rfl := Option.some.inj ht'
        exact ⟨hnone, hvalid, kept, hkeeps, hentries⟩

theorem mem_tagged {id : Identity} {token : Token} {pending : PendingBuffer} :
    (id, token, pending) ∈ tx.tagged ↔
      tx.root.buffers.bufferWrites.get? id = some pending ∧ tx.tokens.get? id = some token := by
  unfold tagged
  rw [mem_filterMap]
  constructor
  · rintro ⟨⟨id', pending'⟩, hmem, hsome⟩
    obtain ⟨token', htoken, heq⟩ := Option.map_eq_some_iff.mp hsome
    obtain ⟨rfl, hrest⟩ := Prod.mk.inj heq
    obtain ⟨rfl, rfl⟩ := Prod.mk.inj hrest
    exact ⟨get?_eq_some.mpr hmem, htoken⟩
  · rintro ⟨hget, htoken⟩
    exact ⟨(id, pending), get?_eq_some.mp hget, by rw [htoken]; rfl⟩

theorem pairwise_tagged (tx : ClientTransaction M) : tx.tagged.Pairwise fun e f => e.1 < f.1 := by
  refine pairwise_filterMap.mpr ?_
  refine tx.root.buffers.bufferWrites.sorted.imp fun {a b} hlt e he f hf => ?_
  obtain ⟨_, -, rfl⟩ := Option.map_eq_some_iff.mp he
  obtain ⟨_, -, rfl⟩ := Option.map_eq_some_iff.mp hf
  exact hlt

theorem nodup_tagged (tx : ClientTransaction M) : tx.tagged.Nodup :=
  tx.pairwise_tagged.imp fun hlt heq => hlt.ne (congrArg Prod.fst heq)

/-- **Every token is that of a closed write that is not a deletion.** -/
def Closed (tx : ClientTransaction M) : Prop :=
  ∀ id token, tx.tokens.get? id = some token → ∃ pending : PendingBuffer,
    tx.root.buffers.bufferWrites.get? id = some pending ∧ pending.sealed = true ∧
      pending.deleted = false

theorem closed_new (root : Root M) : (new root).Closed := nofun

/-- A step that leaves the closed writes alone leaves the tagged ones alone. -/
theorem Closed.keeps {root : RootTransaction M} (h : tx.Closed)
    (hkeeps : tx.root.buffers.Keeps root.buffers) :
    ({ tx with root := root } : ClientTransaction M).Closed ∧
      ({ tx with root := root } : ClientTransaction M).tagged = tx.tagged := by
  refine ⟨fun id token htoken => ?_, ?_⟩
  · obtain ⟨pending, hget, hclosed, hkept⟩ := h id token htoken
    exact ⟨pending, hkeeps id pending hget hclosed, hclosed, hkept⟩
  refine entries_eq_of_mem_iff (pairwise_tagged _) tx.pairwise_tagged fun e => ?_
  obtain ⟨id, token, pending⟩ := e
  rw [mem_tagged, mem_tagged]
  refine and_congr_left fun htoken => ?_
  obtain ⟨known, hget, hclosed, -⟩ := h id token htoken
  rw [hget, hkeeps id known hget hclosed]

/-- The entry that a tagged write has reserved. -/
def reservedEntry (e : Identity × Token × PendingBuffer) : BufferApplyResult :=
  ⟨e.2.1, e.1, e.2.2.base.elim 0 BufferState.revision, .pending⟩

/-- What a transaction owes to its clients. -/
def owed (tx : ClientTransaction M) : List BufferApplyResult := tx.tagged.map reservedEntry

/-- **A staged apply owes what it has reserved.** -/
theorem Stages.owed {floor : ℕ} {results results' : ClientResults} {id : Identity} {expected : ℕ}
    {edits : List Replacement} {supply : Supply} {token : Option Token} {tx' : ClientTransaction M}
    (h : Stages floor results tx id expected edits supply token tx' results') (hclosed : tx.Closed)
    (hsound : tx'.root.buffers.Sound tx'.root.buffers.base)
    (hbase : tx'.root.buffers.base = tx.root.buffers.base) :
    tx'.Closed ∧ tx'.owed.Perm
      ((token.toList.map fun t => ⟨t, id, expected, .pending⟩) ++ tx.owed) := by
  obtain ⟨pending, hsealed, hkept, hwrites⟩ := h.write
  have hnone : tx.tokens.get? id = none := by
    refine Option.eq_none_iff_forall_ne_some.mpr fun t ht => ?_
    obtain ⟨known, hknown, hclosed', -⟩ := hclosed id t ht
    have hfree := h.free
    unfold BufferTransaction.isApplied at hfree
    rw [hknown, Option.any_some, hclosed', Bool.or_true] at hfree
    cases hfree
  have htoken : ∀ id' t, tx'.tokens.get? id' = some t ↔
      id' = id ∧ token = some t ∨ id' ≠ id ∧ tx.tokens.get? id' = some t := by
    intro id' t
    rw [h.tokens]
    cases token with
    | none =>
      rw [Option.elim_none, get?_erase]
      by_cases hid : id' = id <;> simp [hid]
    | some t' =>
      rw [Option.elim_some, get?_insert]
      by_cases hid : id' = id <;> simp [hid]
  have hself : tx'.root.buffers.bufferWrites.get? id = some pending := by
    rw [hwrites, get?_insert_self]
  have hother : ∀ id', id' ≠ id → tx'.root.buffers.bufferWrites.get? id' =
      tx.root.buffers.bufferWrites.get? id' := by
    intro id' hne
    rw [hwrites, get?_insert_of_ne hne]
  refine ⟨fun id' t ht => ?_, ?_⟩
  · rcases (htoken id' t).mp ht with ⟨rfl, -⟩ | ⟨hne, ht⟩
    · exact ⟨pending, hself, hsealed, hkept⟩
    · rw [hother id' hne]
      exact hclosed id' t ht
  have hentry : ∀ t, reservedEntry (id, t, pending) = ⟨t, id, expected, .pending⟩ := by
    intro t
    unfold reservedEntry
    rw [(hsound id pending hself).base_eq, hbase, h.revision]
  have hperm : tx'.tagged.Perm ((token.toList.map fun t => (id, t, pending)) ++ tx.tagged) := by
    refine (perm_ext_iff_of_nodup tx'.nodup_tagged ?_).mpr fun e => ?_
    · refine nodup_append.mpr ⟨?_, tx.nodup_tagged, fun e he f hf => ?_⟩
      · cases token with
        | none => exact .nil
        | some t => exact nodup_singleton _
      · rintro rfl
        obtain ⟨t, -, rfl⟩ := mem_map.mp he
        cases hnone.symm.trans (mem_tagged.mp hf).2
    obtain ⟨id', t, pending'⟩ := e
    rw [mem_tagged, htoken, mem_append, mem_map, mem_tagged]
    constructor
    · rintro ⟨hget, ⟨rfl, rfl⟩ | ⟨hne, ht⟩⟩
      · obtain rfl := Option.some.inj (hself.symm.trans hget)
        exact .inl ⟨t, by simp, rfl⟩
      · exact .inr ⟨(hother id' hne).symm.trans hget, ht⟩
    rintro (⟨t', ht', heq⟩ | ⟨hget, ht⟩)
    · obtain ⟨rfl, hrest⟩ := Prod.mk.inj heq
      obtain ⟨rfl, rfl⟩ := Prod.mk.inj hrest
      exact ⟨hself, .inl ⟨rfl, Option.mem_toList.mp ht'⟩⟩
    · have hne : id' ≠ id := by
        rintro rfl
        cases hnone.symm.trans ht
      exact ⟨(hother id' hne).trans hget, .inr ⟨hne, ht⟩⟩
  have hmap := hperm.map reservedEntry
  rw [map_append, map_map] at hmap
  unfold ClientTransaction.owed
  refine hmap.trans (List.Perm.of_eq (congrArg (· ++ _) (map_congr_left fun t _ => ?_)))
  exact hentry t

/-! ### What comes of them -/

theorem failOutcome_ne (failure : KernelError) :
    failOutcome failure ≠ .pending ∧ ∀ applied n, failOutcome failure ≠ .ok applied n := by
  unfold failOutcome
  split <;> exact ⟨nofun, nofun⟩

/-- A result that tells of no delta. -/
def Refuses (e : Identity × Token × PendingBuffer) (result : BufferApplyResult) : Prop :=
  ClientResults.Settles (reservedEntry e) result ∧ ∀ applied n, result.outcome ≠ .ok applied n

theorem settles_failApplies (failure : KernelError) (current : BufferStates)
    (tagged : List (Identity × Token × PendingBuffer)) :
    List.Forall₂ Refuses tagged (failApplies failure current tagged) := by
  refine forall₂_map_right_iff.mpr (forall₂_same.mpr fun e _ => ?_)
  exact ⟨⟨rfl, rfl, (failOutcome_ne failure).1⟩, (failOutcome_ne failure).2⟩

theorem settles_dropApplies (tagged : List (Identity × Token × PendingBuffer)) :
    List.Forall₂ Refuses tagged (dropApplies tagged) := by
  refine forall₂_map_right_iff.mpr (forall₂_same.mpr fun e _ => ?_)
  exact ⟨⟨rfl, rfl, nofun⟩, nofun⟩

/-- A result whose delta, if there is one, leads from the text that the transaction started from to the
published one. -/
def Completes (next : BufferStates) (e : Identity × Token × PendingBuffer)
    (result : BufferApplyResult) : Prop :=
  ClientResults.Settles (reservedEntry e) result ∧ ∀ applied n, result.outcome = .ok applied n →
    ∃ state, next.get? e.1 = some state ∧ result.revision = state.revision ∧
      Delta.Of (e.2.2.base.elim Text.empty BufferState.text) state.text applied

/-- **Every tagged write that was published is settled.** -/
theorem settles_completeApplies (retained : Delta → ℕ) (rest : Identity → DeltaBudget)
    {next : BufferStates} : ∀ (budget : DeltaBudget)
    {tagged : List (Identity × Token × PendingBuffer)},
    (∀ e ∈ tagged, ∃ state, next.get? e.1 = some state ∧ state.deleted = false) →
      ∃ results, completeApplies retained rest next budget tagged = some results ∧
        List.Forall₂ (Completes next) tagged results
  | budget, [], _ => ⟨[], rfl, .nil⟩
  | budget, (id, token, pending) :: tagged, hlive => by
    obtain ⟨⟨state, hstate, hkept⟩, hrest⟩ := forall_mem_cons.mp hlive
    have hbuffer : (BufferTransaction.new next).baseBuffer id = .ok state := by
      unfold BufferTransaction.baseBuffer BufferTransaction.new
      rw [hstate]
      dsimp only
      rw [hkept, if_neg nofun]
    unfold completeApplies
    rw [hbuffer]
    dsimp only
    cases hbetween : Delta.between (pending.base.elim Text.empty BufferState.text)
      state.text budget with
    | error e =>
      obtain ⟨results, hresults, hsettles⟩ :=
        settles_completeApplies retained rest (rest id) hrest
      dsimp only
      rw [hresults]
      exact ⟨_, rfl, .cons ⟨⟨rfl, rfl, nofun⟩, nofun⟩ hsettles⟩
    | ok found =>
      obtain ⟨applied, budget'⟩ := found
      obtain ⟨results, hresults, hsettles⟩ :=
        settles_completeApplies retained rest budget' hrest
      dsimp only
      rw [hresults]
      refine ⟨_, rfl, .cons ⟨⟨rfl, rfl, nofun⟩, fun d n hok => ?_⟩ hsettles⟩
      obtain ⟨rfl, -⟩ := BufferApplyOutcome.ok.inj hok
      exact ⟨state, hstate, rfl, Delta.between_spec hbetween⟩

end ClientTransaction

end Mica
