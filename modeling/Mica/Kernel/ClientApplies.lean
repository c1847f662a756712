import Mica.Kernel.ClientTransaction
import Mica.Kernel.Staged

/-!
# Kernel/ClientApplies — a tagged apply is settled once, and truthfully

Transactions on one kernel stage tagged applies, and commit, fail or are dropped, in any order.  A
commit publishes before it writes the results, so that anything may happen between two of them.  A
delta that is reported leads from the text of the revision that the client has named to that of the
revision that is reported, whatever was merged into it.

* `ClientSystem.World` — what a step does to the kernel and to the texts in use.
* `ClientSystem.client_applies_settled` — what holds of every run.
-/

open SortedList List SortedMap
open Option (some.inj)

namespace Mica

/-! ## A text with the chunks of many -/

namespace Text

/-- Pieces of which each chunk is taken once. -/
theorem exists_pieces : ∀ (ps : List Piece),
    (∀ p ∈ ps, ∀ q ∈ ps, p.chunk.id = q.chunk.id → p.chunk = q.chunk) →
      ∃ qs : List Piece, qs.Pairwise Pieces.InOrder ∧ (∀ p ∈ ps, ∃ q ∈ qs, p.chunk = q.chunk) ∧
        ∀ q ∈ qs, q ∈ ps
  | [], _ => ⟨[], .nil, nofun, nofun⟩
  | p :: ps, h => by
    obtain ⟨qs, hordered, hcover, hsub⟩ := exists_pieces ps fun p hp q hq =>
      h p (mem_cons_of_mem _ hp) q (mem_cons_of_mem _ hq)
    by_cases hknown : ∃ q ∈ qs, p.chunk = q.chunk
    · refine ⟨qs, hordered, ?_, fun q hq => mem_cons_of_mem _ (hsub q hq)⟩
      exact forall_mem_cons.mpr ⟨hknown, hcover⟩
    refine ⟨p :: qs, pairwise_cons.mpr ⟨fun q hq hid => ?_, hordered⟩, ?_, ?_⟩
    · have hsame := h p mem_cons_self q (mem_cons_of_mem _ (hsub q hq)) hid
      exact absurd ⟨q, hq, hsame⟩ hknown
    · refine forall_mem_cons.mpr ⟨⟨p, mem_cons_self, rfl⟩, fun x hx => ?_⟩
      obtain ⟨q, hq, heq⟩ := hcover x hx
      exact ⟨q, mem_cons_of_mem _ hq, heq⟩
    · rintro q hq
      rcases mem_cons.mp hq with rfl | hq
      · exact mem_cons_self
      · exact mem_cons_of_mem _ (hsub q hq)

/-- **Coherent texts have a cover**: a text with all their chunks and no others. -/
theorem exists_cover {texts : List Text} (h : ∀ t ∈ texts, ∀ u ∈ texts, t.Coherent u) :
    ∃ cover : Text, (∀ t ∈ texts, ∀ p ∈ t.pieces, ∃ q ∈ cover.pieces, p.chunk = q.chunk) ∧
      ∀ q ∈ cover.pieces, ∃ t ∈ texts, ∃ p ∈ t.pieces, q.chunk = p.chunk := by
  obtain ⟨qs, hordered, hcover, hsub⟩ := exists_pieces (texts.flatMap Text.pieces) <| by
    intro p hp q hq
    obtain ⟨t, ht, hp⟩ := mem_flatMap.mp hp
    obtain ⟨u, hu, hq⟩ := mem_flatMap.mp hq
    exact h t ht u hu p hp q hq
  refine ⟨⟨0, qs, hordered⟩, fun t ht p hp => ?_, fun q hq => ?_⟩
  · exact hcover p (mem_flatMap.mpr ⟨t, ht, hp⟩)
  · obtain ⟨t, ht, hq⟩ := mem_flatMap.mp (hsub q hq)
    exact ⟨t, ht, q, hq, rfl⟩

/-- The bound of a text is that of its chunks. -/
theorem bound_le {t : Text} {n : ℕ} (h : ∀ p ∈ t.pieces, p.chunk.id < n) : t.bound ≤ n := by
  unfold bound
  generalize t.pieces = ps at h
  induction ps with
  | nil => exact Nat.zero_le n
  | cons p ps ih =>
    obtain ⟨hp, hps⟩ := forall_mem_cons.mp h
    rw [map_cons, foldr_cons]
    exact max_le hp (ih hps)

end Text

/-! ## Runs -/

/-- A kernel with its open transactions, its table of client applies, and what the transactions that
have ended still have to write there: each tagged write with its result. -/
structure ClientSystem (M : Type → Type) [ByteMap M] where
  kernel : RelationKernel M
  transactions : List (ClientTransaction M)
  settling : List (List ((Identity × Token × PendingBuffer) × BufferApplyResult))
  results : ClientResults

/-- One step of the kernel, or of the `i`-th transaction that is open or has ended. -/
inductive ClientAction (M : Type → Type) [ByteMap M] where
  | createRelation (metadata : RelationMetadata) (persisted : Except String Unit)
  | installRule (rule : Rule) (source : String) (settled : Except KernelError Unit)
      (persisted : Except String Unit)
  | disableRule (ruleId : Identity) (settled : Except KernelError Unit)
      (persisted : Except String Unit)
  | begin
  | act (i : ℕ) (action : TransactionAction M)
  | apply (i : ℕ) (id : Identity) (expected : ℕ) (edits : List Replacement) (supply : Supply)
      (token : Option Token)
  | commit (i : ℕ) (settled : Except KernelError Unit) (supply : Supply)
      (persisted : Except String Unit) (retained : Delta → ℕ) (rest : Identity → DeltaBudget)
  | settle (i : ℕ)
  | drop (i : ℕ)

namespace ClientSystem

variable {M : Type → Type} [ByteMap M]

/-- A kernel without relations. -/
def start : ClientSystem M := ⟨RelationKernel.new, [], [], ClientResults.empty⟩

/-- The texts of some buffers. -/
def textsOf (states : BufferStates) : List (Identity × Text) :=
  states.entries.list.map fun e => (e.1, e.2.text)

/-- The texts that a transaction keeps. -/
def transactionTexts (tx : BufferTransaction) : List (Identity × Text) :=
  textsOf tx.base ++ tx.bufferWrites.list.map fun e => (e.1, e.2.text)

/-- The texts in use. -/
def texts (s : ClientSystem M) : List (Identity × Text) :=
  textsOf s.kernel.root.buffers ++ s.transactions.flatMap fun tx => transactionTexts tx.root.buffers

/-- Below every address that is free. -/
def floor (s : ClientSystem M) : ℕ := (s.texts.map fun e => e.2.bound).foldr max 0

/-- An apply is a step of its own. -/
def isApply : TransactionAction M → Bool
  | .applyBuffer _ _ _ _ _ => true
  | _ => false

/-- The results of a commit. -/
def commitResults (retained : Delta → ℕ) (rest : Identity → DeltaBudget) (current next : BufferStates)
    (tagged : List (Identity × Token × PendingBuffer)) :
    Except KernelError RootCommit → Option (List BufferApplyResult)
  | .ok _ => ClientTransaction.completeApplies retained rest next .default tagged
  | .error e => some (ClientTransaction.failApplies e current tagged)

/-- **One step**, and what it does to the table; `none` if the `expect` of `complete_buffer_applies`
fails. A commit takes the tokens, so that the drop at its end finds none. -/
def step (s : ClientSystem M) : ClientAction M → Option (ClientSystem M × List ClientEvent)
  | .createRelation metadata persisted =>
    some ({ s with kernel := (s.kernel.createRelation metadata persisted).1 }, [])
  | .installRule rule source settled persisted =>
    some ({ s with kernel :=
      (s.kernel.installRule rule source settled persisted).elim s.kernel Prod.fst }, [])
  | .disableRule ruleId settled persisted =>
    some ({ s with kernel := (s.kernel.disableRule ruleId settled persisted).1 }, [])
  | .begin =>
    some ({ s with transactions := s.transactions ++ [ClientTransaction.new s.kernel.root] }, [])
  | .act i action =>
    match s.transactions[i]? with
    | none => some (s, [])
    | some tx =>
      if isApply action then some (s, [])
      else some ({ s with transactions :=
        s.transactions.set i { tx with root := tx.root.act s.floor action } }, [])
  | .apply i id expected edits supply token =>
    match s.transactions[i]? with
    | none => some (s, [])
    | some tx =>
      match tx.applyBuffer s.floor s.results id expected edits supply token with
      | (tx, results, .ok .staged) =>
        some ({ s with transactions := s.transactions.set i tx, results := results },
          token.toList.map fun t => .reserved t id expected)
      | (tx, results, _) =>
        some ({ s with transactions := s.transactions.set i tx, results := results }, [])
  | .commit i settled supply persisted retained rest =>
    match s.transactions[i]? with
    | none => some (s, [])
    | some tx =>
      let (kernel, answer) := s.kernel.commit settled (supply.atLeast s.floor) persisted tx.root
      match commitResults retained rest s.kernel.root.buffers kernel.root.buffers tx.tagged answer with
      | none => none
      | some results => some ({ s with
          kernel := kernel
          transactions := s.transactions.eraseIdx i
          settling := s.settling ++ [tx.tagged.zip results] }, [])
  | .settle i =>
    match s.settling[i]? with
    | none => some (s, [])
    | some [] => some (s, [])
    | some ((_, result) :: queue) =>
      some ({ s with settling := s.settling.set i queue, results := s.results.finish result },
        [.finished (s.results.get? result.token) (ClientResults.stored result)])
  | .drop i =>
    match s.transactions[i]? with
    | none => some (s, [])
    | some tx =>
      let (results, events) := s.results.finishAll (ClientTransaction.dropApplies tx.tagged)
      some ({ s with transactions := s.transactions.eraseIdx i, results := results }, events)

/-- **Runs**, with the buffers that were published and what happened to the table. -/
inductive Run : ClientSystem M → List BufferStates → List ClientEvent → Prop where
  | start : Run start [BufferStates.empty] []
  | step {s s' published log events} (h : Run s published log) (action : ClientAction M)
      (hstep : s.step action = some (s', events)) :
      Run s' (published ++ [s'.kernel.root.buffers]) (log ++ events)

/-! ## The kernel and the texts in use -/

/-- A system without its tables. -/
def toRoot (s : ClientSystem M) : RootSystem M :=
  ⟨s.kernel, s.transactions.map ClientTransaction.root, s.floor⟩

/-- **What a step does to the kernel and to the texts in use**: of each buffer at most one text is
new. -/
structure World (s s' : ClientSystem M) : Prop where
  progress : RootSystem.Progress s.toRoot { s'.toRoot with floor := s.floor }
  one : ∀ id, ∃ text, ∀ t, (id, t) ∈ s'.texts → (id, t) ∈ s.texts ∨ t = text
  bases : ∀ tx ∈ s'.transactions, tx.root.buffers.base = s.kernel.root.buffers ∨
    ∃ old ∈ s.transactions, tx.root.buffers.base = old.root.buffers.base
  tidy : s.kernel.root.buffers.Tidy → s'.kernel.root.buffers.Tidy

/-- Texts of one buffer that are in use are coherent. -/
def Coherent (s : ClientSystem M) : Prop :=
  ∀ id t u, (id, t) ∈ s.texts → (id, u) ∈ s.texts → t.Coherent u

variable {s s' : ClientSystem M}

variable {id : Identity}

theorem mem_textsOf {states : BufferStates} {t : Text} :
    (id, t) ∈ textsOf states ↔ ∃ state, states.get? id = some state ∧ state.text = t := by
  unfold textsOf
  rw [mem_map]
  constructor
  · rintro ⟨⟨id', state⟩, hmem, heq⟩
    obtain ⟨rfl, rfl⟩ := Prod.mk.inj heq
    exact ⟨state, get?_eq_some.mpr hmem, rfl⟩
  · rintro ⟨state, hstate, rfl⟩
    exact ⟨(id, state), get?_eq_some.mp hstate, rfl⟩

theorem mem_transactionTexts {tx : BufferTransaction} {t : Text} :
    (id, t) ∈ transactionTexts tx ↔ (id, t) ∈ textsOf tx.base ∨
      ∃ pending, tx.bufferWrites.get? id = some pending ∧ pending.text = t := by
  unfold transactionTexts
  rw [mem_append, mem_map]
  refine or_congr_right ⟨?_, ?_⟩
  · rintro ⟨⟨id', pending⟩, hmem, heq⟩
    obtain ⟨rfl, rfl⟩ := Prod.mk.inj heq
    exact ⟨pending, get?_eq_some.mpr hmem, rfl⟩
  · rintro ⟨pending, hget, rfl⟩
    exact ⟨(id, pending), get?_eq_some.mp hget, rfl⟩

theorem mem_texts {t : Text} : (id, t) ∈ s.texts ↔
    (id, t) ∈ textsOf s.kernel.root.buffers ∨
      ∃ tx ∈ s.transactions, (id, t) ∈ transactionTexts tx.root.buffers := by
  unfold texts
  rw [mem_append, mem_flatMap]

theorem bound_le_floor {t : Text} (h : (id, t) ∈ s.texts) : t.bound ≤ s.floor :=
  le_foldr_max _ (mem_map.mpr ⟨(id, t), h, rfl⟩)

/-- A state that holds a text, in no state of a buffer. -/
def holding (id : Identity) (text : Text) : BufferStates :=
  BufferStates.empty.insert ⟨⟨id, ⟨0⟩, .volatile, .reject⟩, 0, text, false, 0⟩

theorem holding_eq {id' : Identity} {text : Text} {state : BufferState}
    (h : (holding id text).get? id' = some state) : id' = id ∧ state.text = text := by
  unfold holding at h
  by_cases hid : id' = id
  · subst hid
    rw [BufferStates.get?_insert_self] at h
    exact ⟨rfl, some.inj h ▸ rfl⟩
  · rw [BufferStates.get?_insert_of_ne _ _ hid] at h
    cases h

theorem get?_holding (id : Identity) (text : Text) :
    ∃ state, (holding id text).get? id = some state ∧ state.text = text :=
  ⟨_, BufferStates.get?_insert_self _ _, rfl⟩

/-- **What a step leaves in use is coherent with what was.** -/
theorem World.coherent_across (h : World s s') (hsound : s.toRoot.Sound) (hcoherent : s.Coherent)
     {t u : Text} (ht : (id, t) ∈ s.texts) (hu : (id, u) ∈ s'.texts) :
    t.Coherent u := by
  -- the texts of the buffer have a cover, and a step agrees with it
  have hmem : ∀ a, a ∈ (s.texts.filter fun e => e.1 = id).map Prod.snd ↔ (id, a) ∈ s.texts := by
    intro a
    rw [mem_map]
    constructor
    · rintro ⟨⟨id', a'⟩, ha, rfl⟩
      obtain ⟨hin, hid⟩ := mem_filter.mp ha
      obtain rfl := of_decide_eq_true hid
      exact hin
    · exact fun ha => ⟨(id, a), mem_filter.mpr ⟨ha, decide_eq_true rfl⟩, rfl⟩
  obtain ⟨cover, hcover, hchunks⟩ := Text.exists_cover fun a ha b hb =>
    hcoherent id a b ((hmem a).mp ha) ((hmem b).mp hb)
  have hagrees : ∀ a, (id, a) ∈ s.texts → cover.Agrees a := fun a ha p hp =>
    .inl (hcover a ((hmem a).mpr ha) p hp)
  have hbound : cover.bound ≤ s.floor := by
    refine Text.bound_le fun q hq => ?_
    obtain ⟨a, ha, p, hp, heq⟩ := hchunks q hq
    rw [heq]
    exact (Text.id_lt_bound hp).trans_le (bound_le_floor ((hmem a).mp ha))
  have hlive : RootSystem.Agrees (holding id cover) s.toRoot := by
    refine ⟨fun id' held state hheld hstate => ?_, fun tx htx => ⟨fun id' pending hget => ?_, ?_⟩⟩
    · obtain ⟨rfl, rfl⟩ := holding_eq hheld
      exact hagrees _ (mem_texts.mpr (.inl (mem_textsOf.mpr ⟨state, hstate, rfl⟩)))
    · obtain ⟨_, _, -, -, -, hwrites⟩ := hsound.runs tx htx
      obtain ⟨ctx, hctx, rfl⟩ := mem_map.mp htx
      refine { hwrites id' pending hget with agrees := fun held hheld => ?_ }
      obtain ⟨rfl, rfl⟩ := holding_eq hheld
      exact hagrees _ (mem_texts.mpr (.inr ⟨ctx, hctx, mem_transactionTexts.mpr
        (.inr ⟨pending, hget, rfl⟩)⟩))
    · intro id' held state hheld hstate
      obtain ⟨ctx, hctx, rfl⟩ := mem_map.mp htx
      obtain ⟨rfl, rfl⟩ := holding_eq hheld
      exact hagrees _ (mem_texts.mpr (.inr ⟨ctx, hctx, mem_transactionTexts.mpr
        (.inl (mem_textsOf.mpr ⟨state, hstate, rfl⟩))⟩))
  have hafter := h.progress.agrees (holding id cover) (fun id' held hheld => by
    obtain ⟨rfl, rfl⟩ := holding_eq hheld
    exact hbound) hlive
  obtain ⟨held, hheld, rfl⟩ := get?_holding id cover
  have hu' : held.text.Agrees u := by
    rcases mem_texts.mp hu with hu | ⟨tx, htx, hu⟩
    · obtain ⟨state, hstate, rfl⟩ := mem_textsOf.mp hu
      exact hafter.root id held state hheld hstate
    obtain ⟨hwrites, hbase⟩ := hafter.transactions tx.root (mem_map.mpr ⟨tx, htx, rfl⟩)
    rcases mem_transactionTexts.mp hu with hu | ⟨pending, hget, rfl⟩
    · obtain ⟨state, hstate, rfl⟩ := mem_textsOf.mp hu
      exact hbase id held state hheld hstate
    · exact (hwrites id pending hget).agrees held hheld
  intro p hp q hq hid
  obtain ⟨p', hp', heq⟩ := hcover t ((hmem t).mpr ht) p hp
  rw [heq]
  exact hu'.coherent p' hp' q hq (heq ▸ hid)

theorem World.coherent (h : World s s') (hsound : s.toRoot.Sound) (hcoherent : s.Coherent) :
    s'.Coherent := by
  intro id t u ht hu
  obtain ⟨text, hone⟩ := h.one id
  rcases hone t ht with ht' | hnew
  · exact h.coherent_across hsound hcoherent ht' hu
  · rcases hone u hu with hu' | hnew'
    · exact (h.coherent_across hsound hcoherent hu' ht).symm
    · rw [hnew, hnew']
      exact text.coherent_self

/-! ### Steps -/

/-- At most the text of the root is new. -/
theorem one_of_transactions
    (h : ∀ tx ∈ s'.transactions, ∀ e ∈ transactionTexts tx.root.buffers, e ∈ s.texts) (id : Identity) :
    ∃ text, ∀ t, (id, t) ∈ s'.texts → (id, t) ∈ s.texts ∨ t = text := by
  refine ⟨(s'.kernel.root.buffers.get? id).elim Text.empty BufferState.text, fun t ht => ?_⟩
  rcases mem_texts.mp ht with ht | ⟨tx, htx, ht⟩
  · obtain ⟨state, hstate, rfl⟩ := mem_textsOf.mp ht
    rw [hstate]
    exact .inr rfl
  · exact .inl (h tx htx _ ht)

/-- The texts of an open transaction are in use. -/
theorem mem_texts_of_transaction {tx : ClientTransaction M} (htx : tx ∈ s.transactions) :
    ∀ e ∈ transactionTexts tx.root.buffers, e ∈ s.texts :=
  fun _ he => mem_texts.mpr (.inr ⟨tx, htx, he⟩)

/-- A step of the kernel alone. -/
theorem world_kernel {action : RootAction M} (hsound : s.toRoot.Sound)
    (hstep : s.toRoot.step action = { s.toRoot with kernel := s'.kernel })
    (htransactions : s'.transactions = s.transactions)
    (hbuffers : s'.kernel.root.buffers = s.kernel.root.buffers) : World s s' where
  progress := by
    have h := hsound.progress_step action
    rw [hstep] at h
    unfold toRoot at h ⊢
    rwa [htransactions]
  one := one_of_transactions fun tx htx => mem_texts_of_transaction (htransactions ▸ htx)
  bases tx htx := .inr ⟨tx, htransactions ▸ htx, rfl⟩
  tidy h := hbuffers ▸ h

/-- Transactions that end, or none. -/
theorem world_sublist (hsound : s.toRoot.Sound) (hkernel : s'.kernel = s.kernel)
    (htransactions : ∀ tx ∈ s'.transactions, tx ∈ s.transactions) : World s s' where
  progress := by
    unfold toRoot
    rw [hkernel]
    have hmem : ∀ tx ∈ s'.transactions.map ClientTransaction.root, tx ∈ s.toRoot.transactions := by
      intro tx htx
      obtain ⟨ctx, hctx, rfl⟩ := mem_map.mp htx
      exact mem_map.mpr ⟨ctx, htransactions ctx hctx, rfl⟩
    exact ⟨⟨hsound.root, fun tx htx => hsound.runs tx (hmem tx htx)⟩, rfl, .refl _,
      fun _ _ hlive => ⟨hlive.root, fun tx htx => hlive.transactions tx (hmem tx htx)⟩⟩
  one := one_of_transactions fun tx htx => mem_texts_of_transaction (htransactions tx htx)
  bases tx htx := .inr ⟨tx, htransactions tx htx, rfl⟩
  tidy h := hkernel ▸ h

theorem world_begin (hsound : s.toRoot.Sound) :
    World s { s with transactions := s.transactions ++ [ClientTransaction.new s.kernel.root] } where
  progress := by
    have h := hsound.progress_step .begin
    unfold toRoot at h ⊢
    rwa [map_append]
  one := one_of_transactions fun tx htx => by
    rcases mem_append.mp htx with hold | hnew
    · exact mem_texts_of_transaction hold
    obtain rfl := mem_singleton.mp hnew
    refine fun e he => mem_texts.mpr (.inl ?_)
    rcases mem_transactionTexts.mp he with he | ⟨pending, hget, -⟩
    · exact he
    · cases hget
  bases tx htx := by
    rcases mem_append.mp htx with hold | hnew
    · exact .inr ⟨tx, hold, rfl⟩
    · obtain rfl := mem_singleton.mp hnew
      exact .inl rfl
  tidy h := h

/-- What is sound of an open transaction stays so in its next step. -/
theorem sound_act (hsound : s.toRoot.Sound) {tx : ClientTransaction M} (htx : tx ∈ s.transactions)
    (action : TransactionAction M) :
    (tx.root.act s.floor action).buffers.Sound (tx.root.act s.floor action).buffers.base ∧
      (tx.root.act s.floor action).buffers.base = tx.root.buffers.base := by
  obtain ⟨_, _, -, -, -, hwrites⟩ := hsound.runs tx.root (mem_map.mpr ⟨tx, htx, rfl⟩)
  obtain ⟨h, hbase⟩ := RootTransaction.sound_act s.floor hwrites (BufferStates.agreesWith_self _)
    (fun _ _ => tx.root.buffers.spares_base _) action
  exact ⟨hbase.symm ▸ h, hbase⟩

/-- A step of one transaction. -/
theorem world_set (hsound : s.toRoot.Sound) {i : ℕ} {tx tx' : ClientTransaction M}
    (htx : s.transactions[i]? = some tx) {action : TransactionAction M}
    (hroot : tx'.root = tx.root.act s.floor action) (hkernel : s'.kernel = s.kernel)
    (htransactions : s'.transactions = s.transactions.set i tx') : World s s' := by
  have hmem := mem_of_getElem? htx
  obtain ⟨-, hbase⟩ := sound_act hsound hmem action
  have hset : ∀ x ∈ s'.transactions, x ∈ s.transactions ∨ x = tx' := fun x hx =>
    mem_or_eq_of_mem_set (htransactions ▸ hx)
  refine ⟨?_, fun id => ?_, fun x hx => ?_, fun h => hkernel ▸ h⟩
  · have h := hsound.progress_act i action
    have hlist : s'.transactions.map ClientTransaction.root =
        (s.transactions.map ClientTransaction.root).modify i fun tx => tx.act s.floor action := by
      rw [htransactions]
      refine ext_getElem? fun j => ?_
      rw [getElem?_map, getElem?_modify, getElem?_map, getElem?_set]
      by_cases hj : i = j
      · subst hj
        obtain ⟨hlt, rfl⟩ := List.getElem?_eq_some_iff.mp htx
        simp [hlt, hroot]
      · simp [hj]
    unfold toRoot at h ⊢
    rwa [hkernel, hlist]
  · refine ⟨(tx'.root.buffers.bufferWrites.get? id).elim Text.empty PendingBuffer.text, fun t ht => ?_⟩
    rcases mem_texts.mp ht with ht | ⟨x, hx, ht⟩
    · exact .inl (mem_texts.mpr (.inl (hkernel ▸ ht)))
    rcases hset x hx with hold | rfl
    · exact .inl (mem_texts_of_transaction hold _ ht)
    rcases mem_transactionTexts.mp ht with ht | ⟨pending, hget, rfl⟩
    · rw [hroot, hbase] at ht
      exact .inl (mem_texts_of_transaction hmem _ (mem_transactionTexts.mpr (.inl ht)))
    · rw [hget]
      exact .inr rfl
  · rcases hset x hx with hold | rfl
    · exact .inr ⟨x, hold, rfl⟩
    · exact .inr ⟨tx, hmem, by rw [hroot, hbase]⟩

/-- A commit, whatever its answer. -/
theorem world_commit (hsound : s.toRoot.Sound) {i : ℕ} {tx : ClientTransaction M}
    (htx : s.transactions[i]? = some tx) (settled : Except KernelError Unit) (supply : Supply)
    (persisted : Except String Unit)
    (hkernel : s'.kernel = (s.kernel.commit settled (supply.atLeast s.floor) persisted tx.root).1)
    (htransactions : s'.transactions = s.transactions.eraseIdx i) : World s s' := by
  have hmem := mem_of_getElem? htx
  refine ⟨?_, one_of_transactions fun x hx => ?_, fun x hx => ?_, fun htidy => ?_⟩
  · have h := hsound.progress_step (.commit i settled supply persisted)
    have hget : s.toRoot.transactions[i]? = some tx.root := by
      unfold toRoot
      rw [getElem?_map, htx, Option.map_some]
    unfold RootSystem.step at h
    simp only [hget] at h
    unfold toRoot at h ⊢
    rwa [hkernel, htransactions, ← eraseIdx_map]
  · exact mem_texts_of_transaction (mem_of_mem_eraseIdx (htransactions ▸ hx))
  · exact .inr ⟨x, mem_of_mem_eraseIdx (htransactions ▸ hx), rfl⟩
  · rw [hkernel]
    rcases s.kernel.commit_cases settled (supply.atLeast s.floor) persisted tx.root with
      ⟨e, he⟩ | ⟨next, commit, hprepare, persistent, -, hresult⟩
    · rwa [he]
    · rw [hresult]
      obtain ⟨base, _, hbase, -, hbuffers, hwrites⟩ :=
        hsound.runs tx.root (mem_map.mpr ⟨tx, hmem, rfl⟩)
      obtain ⟨-, hmaterialize⟩ := RootTransaction.prepare_eq_ok hprepare
      exact (moves_materializeBuffers hwrites (hbuffers ▸ hbase.buffers) htidy hmaterialize).2.1

/-! ## What is owed -/

/-- What the open transactions and those that have ended owe to their clients. -/
def owed (s : ClientSystem M) : List BufferApplyResult :=
  s.transactions.flatMap ClientTransaction.owed ++
    s.settling.flatMap fun queue => queue.map fun p => ClientTransaction.reservedEntry p.1

/-- **The text of a revision**, among the published ones; before a buffer is published it is empty. -/
def TextAt (published : List BufferStates) (id : Identity) (revision : ℕ) (text : List Char) : Prop :=
  (∃ states ∈ published, ∃ state, states.get? id = some state ∧ state.revision = revision ∧
    state.text.toText = text) ∨ revision = 0 ∧ text = []

/-- **A delta that is reported leads from the revision that the client has named to the reported
one.** -/
def Truthful (published : List BufferStates) (e result : BufferApplyResult) : Prop :=
  ∀ applied n, result.outcome = .ok applied n → ∃ before after,
    TextAt published result.buffer e.revision before ∧
      TextAt published result.buffer result.revision after ∧ applied.Makes before after

/-- **What holds of the kernel and of what it has published.** -/
structure Known (s : ClientSystem M) (published : List BufferStates) : Prop where
  sound : s.toRoot.Sound
  coherent : s.Coherent
  ordered : published.Pairwise BufferStates.Follows
  tidy : ∀ states ∈ published, states.Tidy
  root : s.kernel.root.buffers ∈ published
  last : ∀ states ∈ published, states.Follows s.kernel.root.buffers
  bases : ∀ tx ∈ s.transactions, tx.root.buffers.base ∈ published

variable {published : List BufferStates} {log : List ClientEvent}

theorem TextAt.append {revision : ℕ} {text : List Char}
    (h : TextAt published id revision text) (new : List BufferStates) :
    TextAt (published ++ new) id revision text :=
  h.imp_left fun ⟨states, hmem, hstate⟩ => ⟨states, mem_append_left _ hmem, hstate⟩

theorem Truthful.append {e result : BufferApplyResult} (h : Truthful published e result)
    (new : List BufferStates) : Truthful (published ++ new) e result := by
  intro applied n hok
  obtain ⟨before, after, hbefore, hafter, hmakes⟩ := h applied n hok
  exact ⟨before, after, hbefore.append new, hafter.append new, hmakes⟩

/-- **A revision has one text.** -/
theorem Known.textAt_unique (h : Known s published) {revision : ℕ}
    {text text' : List Char} (ht : TextAt published id revision text)
    (ht' : TextAt published id revision text') : text = text' := by
  have hzero : ∀ states ∈ published, ∀ state, states.get? id = some state → state.revision = 0 →
      state.text.toText = [] := fun states hmem state hstate hrevision =>
    (((h.tidy states hmem).plain id state hstate).zero hrevision).1
  have hfollows : ∀ a b : BufferStates, a.Follows b → ∀ x y, a.get? id = some x →
      b.get? id = some y → x.revision = y.revision → x.text.toText = y.text.toText := by
    intro a b hab x y hx hy hrevision
    obtain ⟨y', hy', hlater⟩ := hab id x hx
    obtain rfl := some.inj (hy.symm.trans hy')
    exact (hlater.same hrevision.symm).1.symm
  rcases ht with ⟨a, ha, x, hx, hxrev, rfl⟩ | ⟨hrevision, rfl⟩
  · rcases ht' with ⟨b, hb, y, hy, hyrev, rfl⟩ | ⟨hrevision, rfl⟩
    · obtain ⟨i, hi, rfl⟩ := getElem_of_mem ha
      obtain ⟨j, hj, rfl⟩ := getElem_of_mem hb
      have hrev := hxrev.trans hyrev.symm
      rcases lt_trichotomy i j with hlt | rfl | hlt
      · exact hfollows _ _ (pairwise_iff_getElem.mp h.ordered i j hi hj hlt) x y hx hy hrev
      · exact hfollows _ _ (.refl _) x y hx hy hrev
      · exact (hfollows _ _ (pairwise_iff_getElem.mp h.ordered j i hj hi hlt) y x hy hx
          hrev.symm).symm
    · exact hzero a ha x hx (hxrev.trans hrevision)
  · rcases ht' with ⟨b, hb, y, hy, hyrev, rfl⟩ | ⟨-, rfl⟩
    · exact (hzero b hb y hy (hyrev.trans hrevision)).symm
    · rfl

theorem known_start : Known (start : ClientSystem M) [BufferStates.empty] where
  sound := RootSystem.sound_start
  coherent _ _ _ ht := nomatch ht
  ordered := pairwise_singleton _ _
  tidy states hmem := by
    rw [mem_singleton.mp hmem]
    exact BufferStates.tidy_empty
  root := mem_singleton_self _
  last states hmem := by
    rw [mem_singleton.mp hmem]
    exact .refl _
  bases := nofun

/-- **Every step keeps what holds of the kernel.** -/
theorem Known.step (h : Known s published) (hworld : World s s') :
    Known s' (published ++ [s'.kernel.root.buffers]) where
  sound := ⟨hworld.progress.sound.root, hworld.progress.sound.runs⟩
  coherent := hworld.coherent h.sound h.coherent
  ordered := by
    refine pairwise_append.mpr ⟨h.ordered, pairwise_singleton _ _, fun a ha b hb => ?_⟩
    rw [mem_singleton.mp hb]
    exact (h.last a ha).trans hworld.progress.grows.buffers
  tidy states hmem := by
    rcases mem_append.mp hmem with hold | hnew
    · exact h.tidy states hold
    · rw [mem_singleton.mp hnew]
      exact hworld.tidy (h.tidy _ h.root)
  root := mem_append_right _ (mem_singleton_self _)
  last states hmem := by
    rcases mem_append.mp hmem with hold | hnew
    · exact (h.last states hold).trans hworld.progress.grows.buffers
    · rw [mem_singleton.mp hnew]
      exact .refl _
  bases tx htx := by
    refine mem_append_left _ ?_
    rcases hworld.bases tx htx with heq | ⟨old, hold, heq⟩
    · exact heq ▸ h.root
    · exact heq ▸ h.bases old hold

/-- **The delta of a published write is truthful.** -/
theorem Known.truthful (h : Known s published) (hworld : World s s') {tx : ClientTransaction M}
    (htx : tx ∈ s.transactions) {e : Identity × Token × PendingBuffer} (he : e ∈ tx.tagged)
    {result : BufferApplyResult}
    (hcompletes : ClientTransaction.Completes s'.kernel.root.buffers e result) :
    Truthful (published ++ [s'.kernel.root.buffers]) (ClientTransaction.reservedEntry e) result := by
  obtain ⟨id, token, pending⟩ := e
  obtain ⟨hget, -⟩ := ClientTransaction.mem_tagged.mp he
  obtain ⟨_, _, -, -, -, hwrites⟩ := h.sound.runs tx.root (mem_map.mpr ⟨tx, htx, rfl⟩)
  have hbase := (hwrites id pending hget).base_eq
  intro applied n hok
  obtain ⟨hsettles, hdelta⟩ := hcompletes
  obtain ⟨state, hstate, hrevision, hof⟩ := hdelta applied n hok
  have hbuffer : result.buffer = id := hsettles.buffer
  dsimp only at hstate hof
  have hafter : TextAt (published ++ [s'.kernel.root.buffers]) id result.revision
      state.text.toText :=
    .inl ⟨_, mem_append_right _ (mem_singleton_self _), state, hstate, hrevision.symm, rfl⟩
  rw [hbuffer]
  cases hpending : pending.base with
  | none =>
    rw [hpending] at hof
    refine ⟨[], state.text.toText, .inr ⟨?_, rfl⟩, hafter, hof.makes (Text.shows_empty _)⟩
    unfold ClientTransaction.reservedEntry
    rw [hpending]
    rfl
  | some base =>
    rw [hpending] at hof hbase
    have hold : (id, base.text) ∈ s.texts := mem_texts_of_transaction htx _
      (mem_transactionTexts.mpr (.inl (mem_textsOf.mpr ⟨base, hbase.symm, rfl⟩)))
    have hnew : (id, state.text) ∈ s'.texts :=
      mem_texts.mpr (.inl (mem_textsOf.mpr ⟨state, hstate, rfl⟩))
    have hshows := (hworld.coherent_across h.sound h.coherent hold hnew).shows
    refine ⟨base.text.toText, state.text.toText, .inl ⟨_, mem_append_left _ (h.bases tx htx),
      base, hbase.symm, ?_, rfl⟩, hafter, hof.makes hshows⟩
    unfold ClientTransaction.reservedEntry
    rw [hpending]
    rfl

/-! ## The table -/

/-- An element of a list, with what is before it and behind it. -/
theorem exists_split {α : Type} {l : List α} {i : ℕ} {a : α} (h : l[i]? = some a) :
    ∃ pre post, l = pre ++ a :: post ∧ (∀ b, l.set i b = pre ++ b :: post) ∧
      l.eraseIdx i = pre ++ post := by
  obtain ⟨hlt, rfl⟩ := List.getElem?_eq_some_iff.mp h
  refine ⟨l.take i, l.drop (i + 1), ?_, fun b => ?_, eraseIdx_eq_take_drop_succ l i⟩
  · rw [getElem_cons_drop, take_append_drop]
  · rw [set_eq_take_append_cons_drop, if_pos hlt]

/-- **What holds of every state of a run.** -/
structure Inv (s : ClientSystem M) (published : List BufferStates) (log : List ClientEvent) : Prop
    extends Known s published where
  closed : ∀ tx ∈ s.transactions, tx.Closed
  queued : ∀ queue ∈ s.settling, ∀ p ∈ queue,
    ClientResults.Settles (ClientTransaction.reservedEntry p.1) p.2 ∧
      Truthful published (ClientTransaction.reservedEntry p.1) p.2
  keeps : s.results.Keeps s.owed log (Truthful published)

/-- What a step does to the table and to what is owed. -/
structure Stepped (s s' : ClientSystem M) (published : List BufferStates)
    (log events : List ClientEvent) :
    Prop where
  world : World s s'
  closed : ∀ tx ∈ s'.transactions, tx.Closed
  queued : ∀ queue ∈ s'.settling, ∀ p ∈ queue,
    ClientResults.Settles (ClientTransaction.reservedEntry p.1) p.2 ∧
      Truthful (published ++ [s'.kernel.root.buffers]) (ClientTransaction.reservedEntry p.1) p.2
  keeps : s'.results.Keeps s'.owed (log ++ events) (Truthful (published ++ [s'.kernel.root.buffers]))
  ends : ∀ e ∈ s.owed, e ∈ s'.owed ∨
    ∃ before result, .finished before result ∈ events ∧ result.token = e.token

theorem inv_start : Inv (start : ClientSystem M) [BufferStates.empty] [] :=
  { known_start with
    closed := nofun
    queued := nofun
    keeps := ClientResults.keeps_empty }

theorem Inv.stepped (h : Inv s published log) {events : List ClientEvent}
    (hstep : Stepped s s' published log events) :
    Inv s' (published ++ [s'.kernel.root.buffers]) (log ++ events) :=
  { h.toKnown.step hstep.world with
    closed := hstep.closed
    queued := hstep.queued
    keeps := hstep.keeps }

theorem Inv.queued_append (h : Inv s published log) (new : List BufferStates) :
    ∀ queue ∈ s.settling, ∀ p ∈ queue,
      ClientResults.Settles (ClientTransaction.reservedEntry p.1) p.2 ∧
        Truthful (published ++ new) (ClientTransaction.reservedEntry p.1) p.2 :=
  fun queue hqueue p hp => ⟨(h.queued queue hqueue p hp).1, (h.queued queue hqueue p hp).2.append new⟩

/-- A step that leaves the table and what is owed as they are, but for evictions. -/
theorem Inv.quiet (h : Inv s published log) (hworld : World s s')
    (hclosed : ∀ tx ∈ s'.transactions, tx.Closed) (hsettling : s'.settling = s.settling)
    (howed : s'.owed = s.owed) (hvalid : s'.results.Valid) (hevicts : s.results.Evicts s'.results) :
    Stepped s s' published log [] where
  world := hworld
  closed := hclosed
  queued := hsettling ▸ h.queued_append _
  keeps := by
    rw [howed, append_nil]
    exact (h.keeps.evicts hvalid hevicts).mono fun _ _ htrue => htrue.append _
  ends e he := .inl (howed ▸ he)

/-! ### The steps of a transaction -/

theorem owed_split {pre post : List (ClientTransaction M)} {tx : ClientTransaction M}
    (h : s.transactions = pre ++ tx :: post) : s.owed.Perm (tx.owed ++
      (pre.flatMap ClientTransaction.owed ++ (post.flatMap ClientTransaction.owed ++
        s.settling.flatMap fun queue => queue.map fun p => ClientTransaction.reservedEntry p.1))) := by
  unfold owed
  rw [h, flatMap_append, flatMap_cons]
  refine perm_iff_count.mpr fun e => ?_
  simp only [count_append]
  omega

/-- An edit of a transaction, or any other step but an apply. -/
theorem Inv.act (h : Inv s published log) {i : ℕ} {tx : ClientTransaction M}
    (htx : s.transactions[i]? = some tx) (action : TransactionAction M) :
    Stepped s { s with transactions :=
      s.transactions.set i { tx with root := tx.root.act s.floor action } } published log [] := by
  have hmem := mem_of_getElem? htx
  obtain ⟨hclosed, htagged⟩ := (h.closed tx hmem).keeps (tx.root.keeps_act s.floor action)
  obtain ⟨pre, post, hlist, hset, -⟩ := exists_split htx
  refine h.quiet (world_set h.sound htx rfl rfl rfl) (fun x hx => ?_) rfl ?_ h.keeps.valid (.refl _)
  · rcases mem_or_eq_of_mem_set hx with hold | rfl
    · exact h.closed x hold
    · exact hclosed
  unfold owed
  dsimp only
  rw [hset, hlist]
  simp only [flatMap_append, flatMap_cons]
  unfold ClientTransaction.owed
  rw [htagged]

/-- An apply that is staged. -/
theorem Inv.stages (h : Inv s published log) {i : ℕ} {tx tx' : ClientTransaction M}
    (htx : s.transactions[i]? = some tx) {expected : ℕ} {edits : List Replacement}
    {supply : Supply} {token : Option Token} {results : ClientResults}
    (hstages : tx.Stages s.floor s.results id expected edits supply token tx' results) :
    Stepped s { s with transactions := s.transactions.set i tx', results := results } published log
      (token.toList.map fun t => .reserved t id expected) := by
  have hmem := mem_of_getElem? htx
  obtain ⟨hsound, hbase⟩ := sound_act h.sound hmem (.applyBuffer id expected edits supply (.ok ()))
  rw [← hstages.root] at hsound hbase
  obtain ⟨hclosed, howed⟩ := hstages.owed (h.closed tx hmem) hsound hbase
  obtain ⟨pre, post, hlist, hset, -⟩ := exists_split htx
  have hworld : World s { s with transactions := s.transactions.set i tx', results := results } :=
    world_set h.sound htx hstages.root rfl rfl
  have hperm : ({ s with transactions := s.transactions.set i tx', results := results } :
      ClientSystem M).owed.Perm
        ((token.toList.map fun t => ⟨t, id, expected, .pending⟩) ++ s.owed) := by
    refine (owed_split (hset tx')).trans ?_
    refine (howed.append_right _).trans ?_
    rw [append_assoc]
    exact (owed_split hlist).symm.append_left _
  refine ⟨hworld, fun x hx => ?_, h.queued_append _, ?_, fun e he => .inl ?_⟩
  · rcases mem_or_eq_of_mem_set hx with hold | rfl
    · exact h.closed x hold
    · exact hclosed
  · have hkeeps : results.Keeps ((token.toList.map fun t => ⟨t, id, expected, .pending⟩) ++ s.owed)
        (log ++ token.toList.map fun t => .reserved t id expected) (Truthful published) := by
      cases token with
      | none =>
        rw [hstages.untagged rfl]
        simpa using h.keeps
      | some t =>
        obtain ⟨hnone, hvalid, kept, hevicts, hentries⟩ := hstages.reserved t rfl
        exact h.keeps.reserve hnone hvalid hevicts hentries
    exact (hkeeps.perm hperm.symm).mono fun _ _ htrue => htrue.append _
  · exact hperm.symm.subset (mem_append_right _ he)

/-- The results of a commit settle the tagged writes. -/
theorem Inv.commitResults (h : Inv s published log) {tx : ClientTransaction M}
    (htx : tx ∈ s.transactions) (settled : Except KernelError Unit) (supply : Supply)
    (persisted : Except String Unit) (retained : Delta → ℕ) (rest : Identity → DeltaBudget)
    {kernel : RelationKernel M} {answer : Except KernelError RootCommit}
    (hcommit : s.kernel.commit settled (supply.atLeast s.floor) persisted tx.root = (kernel, answer)) :
    ∃ results, commitResults retained rest s.kernel.root.buffers kernel.root.buffers tx.tagged answer =
        some results ∧
      List.Forall₂ (ClientTransaction.Completes kernel.root.buffers) tx.tagged results := by
  obtain ⟨_, _, -, -, -, hwrites⟩ := h.sound.runs tx.root (mem_map.mpr ⟨tx, htx, rfl⟩)
  rcases s.kernel.commit_cases settled (supply.atLeast s.floor) persisted tx.root with
    ⟨e, he⟩ | ⟨next, commit, hprepare, persistent, -, hresult⟩
  · obtain ⟨-, rfl⟩ := Prod.mk.inj (hcommit.symm.trans he)
    refine ⟨_, rfl, (ClientTransaction.settles_failApplies e s.kernel.root.buffers tx.tagged).imp ?_⟩
    exact fun x result hrefuses => ⟨hrefuses.1, fun d n hok => absurd hok (hrefuses.2 d n)⟩
  · obtain ⟨rfl, rfl⟩ := Prod.mk.inj (hcommit.symm.trans hresult)
    obtain ⟨-, hmaterialize⟩ := RootTransaction.prepare_eq_ok hprepare
    refine ClientTransaction.settles_completeApplies retained rest .default fun e he => ?_
    obtain ⟨id, token, pending⟩ := e
    obtain ⟨hget, htoken⟩ := ClientTransaction.mem_tagged.mp he
    obtain ⟨known, hknown, -, hkept⟩ := h.closed tx htx id token htoken
    obtain rfl := some.inj (hget.symm.trans hknown)
    exact live_materializeBuffers hwrites hmaterialize hget hkept

/-- A commit. -/
theorem Inv.commit (h : Inv s published log) {i : ℕ} {tx : ClientTransaction M}
    (htx : s.transactions[i]? = some tx) {settled : Except KernelError Unit} {supply : Supply}
    {persisted : Except String Unit} {kernel : RelationKernel M}
    {answer : Except KernelError RootCommit} {results : List BufferApplyResult}
    (hcommit : s.kernel.commit settled (supply.atLeast s.floor) persisted tx.root = (kernel, answer))
    (hresults : List.Forall₂ (ClientTransaction.Completes kernel.root.buffers) tx.tagged results) :
    Stepped s { s with
      kernel := kernel
      transactions := s.transactions.eraseIdx i
      settling := s.settling ++ [tx.tagged.zip results] } published log [] := by
  have hmem := mem_of_getElem? htx
  obtain ⟨pre, post, hlist, -, herase⟩ := exists_split htx
  generalize hs' : ({ s with
      kernel := kernel
      transactions := s.transactions.eraseIdx i
      settling := s.settling ++ [tx.tagged.zip results] } : ClientSystem M) = s'
  have hkernel : s'.kernel = kernel := by rw [← hs']
  have htransactions : s'.transactions = pre ++ post := by rw [← hs', ← herase]
  have hsettling : s'.settling = s.settling ++ [tx.tagged.zip results] := by rw [← hs']
  have hresult : s'.results = s.results := by rw [← hs']
  have hworld : World s s' := world_commit h.sound htx settled supply persisted
    (by rw [hkernel, hcommit]) (by rw [htransactions, herase])
  have hqueue : (tx.tagged.zip results).map (fun p => ClientTransaction.reservedEntry p.1) =
      tx.owed := by
    change (tx.tagged.zip results).map (ClientTransaction.reservedEntry ∘ Prod.fst) = tx.owed
    rw [← map_map, map_fst_zip hresults.length_eq.le]
    rfl
  have hperm : s.owed.Perm s'.owed := by
    unfold owed
    rw [hlist, htransactions, hsettling]
    simp only [flatMap_append, flatMap_cons, flatMap_nil, append_nil, hqueue]
    refine perm_iff_count.mpr fun e => ?_
    simp only [count_append]
    omega
  refine ⟨hworld, fun x hx => ?_, fun queue hq p hp => ?_, ?_, fun e he => .inl (hperm.subset he)⟩
  · rw [htransactions, ← herase] at hx
    exact h.closed x (mem_of_mem_eraseIdx hx)
  · rw [hsettling] at hq
    rcases mem_append.mp hq with hold | hnew
    · exact h.queued_append _ queue hold p hp
    · rw [mem_singleton.mp hnew] at hp
      have hcompletes := (forall₂_iff_zip.mp hresults).2 hp
      exact ⟨hcompletes.1, h.truthful hworld hmem (of_mem_zip hp).1 (hkernel ▸ hcompletes)⟩
  · rw [append_nil, hresult]
    exact (h.keeps.perm hperm).mono fun _ _ htrue => htrue.append _

/-- One result is written. -/
theorem Inv.settle (h : Inv s published log) {i : ℕ}
    {p : (Identity × Token × PendingBuffer) × BufferApplyResult}
    {queue : List ((Identity × Token × PendingBuffer) × BufferApplyResult)}
    (hi : s.settling[i]? = some (p :: queue)) :
    Stepped s { s with settling := s.settling.set i queue, results := s.results.finish p.2 } published
      log [.finished (s.results.get? p.2.token) (ClientResults.stored p.2)] := by
  obtain ⟨pre, post, hlist, hset, -⟩ := exists_split hi
  have hworld : World s { s with
      settling := s.settling.set i queue, results := s.results.finish p.2 } :=
    world_sublist h.sound rfl fun _ htx => htx
  have hmem := mem_of_getElem? hi
  obtain ⟨hsettles, htrue⟩ := h.queued _ hmem p mem_cons_self
  have hstored : Truthful published (ClientTransaction.reservedEntry p.1)
    (ClientResults.stored p.2) := by
    intro applied n hok
    have hsame := ClientResults.stored_eq_of_ok hok
    rw [hsame] at hok ⊢
    exact htrue applied n hok
  have hperm : s.owed.Perm (ClientTransaction.reservedEntry p.1 :: ({ s with
      settling := s.settling.set i queue, results := s.results.finish p.2 } :
        ClientSystem M).owed) := by
    unfold owed
    dsimp only
    rw [hset, hlist]
    simp only [flatMap_append, flatMap_cons, map_cons]
    refine perm_iff_count.mpr fun e => ?_
    simp only [count_append, count_cons]
    omega
  refine ⟨hworld, h.closed, fun queue' hq p' hp => ?_, ?_, fun e he => ?_⟩
  · rcases mem_or_eq_of_mem_set hq with hold | rfl
    · exact h.queued_append _ queue' hold p' hp
    · exact h.queued_append _ _ hmem p' (mem_cons_of_mem p hp)
  · exact ((h.keeps.perm hperm).finish hsettles hstored).mono fun _ _ htrue => htrue.append _
  · rcases mem_cons.mp (hperm.subset he) with rfl | hrest
    · refine .inr ⟨_, _, mem_singleton_self _, ?_⟩
      rw [ClientResults.stored_token, hsettles.token]
    · exact .inl hrest

/-- A transaction is dropped. -/
theorem Inv.drop (h : Inv s published log) {i : ℕ} {tx : ClientTransaction M}
    (htx : s.transactions[i]? = some tx) :
    Stepped s { s with
      transactions := s.transactions.eraseIdx i
      results := (s.results.finishAll (ClientTransaction.dropApplies tx.tagged)).1 } published log
      (s.results.finishAll (ClientTransaction.dropApplies tx.tagged)).2 := by
  obtain ⟨pre, post, hlist, -, herase⟩ := exists_split htx
  have hrefuses := ClientTransaction.settles_dropApplies tx.tagged
  generalize hs' : ({ s with
      transactions := s.transactions.eraseIdx i
      results := (s.results.finishAll (ClientTransaction.dropApplies tx.tagged)).1 } :
    ClientSystem M) = s'
  have htransactions : s'.transactions = pre ++ post := by rw [← hs', ← herase]
  have hsettling : s'.settling = s.settling := by rw [← hs']
  have hkernel : s'.kernel = s.kernel := by rw [← hs']
  have hmem : ∀ x ∈ s'.transactions, x ∈ s.transactions := fun x hx => by
    rw [htransactions, ← herase] at hx
    exact mem_of_mem_eraseIdx hx
  have hperm : s.owed.Perm (tx.owed ++ s'.owed) := by
    refine (owed_split hlist).trans (List.Perm.append_left _ ?_)
    unfold owed
    rw [htransactions, hsettling, flatMap_append, append_assoc]
  -- each tagged write with its result
  let settled := (tx.tagged.zip (ClientTransaction.dropApplies tx.tagged)).map fun p =>
    (ClientTransaction.reservedEntry p.1, p.2)
  have hfst : settled.map Prod.fst = tx.owed := by
    change ((tx.tagged.zip _).map _).map _ = _
    rw [map_map]
    change (tx.tagged.zip _).map (ClientTransaction.reservedEntry ∘ Prod.fst) = _
    rw [← map_map, map_fst_zip hrefuses.length_eq.le]
    rfl
  have hsnd : settled.map Prod.snd = ClientTransaction.dropApplies tx.tagged := by
    change ((tx.tagged.zip _).map _).map _ = _
    rw [map_map]
    exact map_snd_zip hrefuses.length_eq.ge
  have hsettles : ∀ p ∈ settled, ClientResults.Settles p.1 p.2 ∧
      Truthful published p.1 (ClientResults.stored p.2) := by
    intro p hp
    obtain ⟨q, hq, rfl⟩ := mem_map.mp hp
    obtain ⟨hsettles, hnone⟩ := (forall₂_iff_zip.mp hrefuses).2 hq
    refine ⟨hsettles, fun applied n hok => ?_⟩
    have hsame := ClientResults.stored_eq_of_ok hok
    rw [hsame] at hok
    exact absurd hok (hnone applied n)
  have hkeeps := (h.keeps.perm (hfst ▸ hperm)).finishAll hsettles
  rw [hsnd] at hkeeps
  refine ⟨world_sublist h.sound hkernel hmem, fun x hx => h.closed x (hmem x hx),
    hsettling ▸ h.queued_append _, ?_, fun e he => ?_⟩
  · have hresults : s'.results =
        (s.results.finishAll (ClientTransaction.dropApplies tx.tagged)).1 := by rw [← hs']
    rw [hresults]
    exact hkeeps.mono fun _ _ htrue => htrue.append _
  · rcases mem_append.mp (hperm.subset he) with howed | hrest
    · rw [← hfst] at howed
      obtain ⟨p, hp, rfl⟩ := mem_map.mp howed
      have hin : p.2 ∈ ClientTransaction.dropApplies tx.tagged :=
        hsnd ▸ mem_map_of_mem hp
      obtain ⟨before, hbefore⟩ := ClientResults.exists_finished s.results hin
      exact .inr ⟨before, _, hbefore, (ClientResults.stored_token p.2).trans (hsettles p hp).1.token⟩
    · exact .inl hrest

/-! ## Every run -/

/-- What the kernel publishes with the buffers as they are. -/
theorem buffers_of_published {kernel : RelationKernel M} {snapshot : Snapshot M} {next : Root M}
    {commit : RootCommit} {result : RelationKernel M × Except KernelError RootCommit}
    (h : RelationKernel.Published snapshot kernel next commit result)
    (hbuffers : next.buffers = kernel.root.buffers) :
    result.1.root.buffers = kernel.root.buffers := by
  obtain ⟨persistent, -, rfl⟩ := h
  exact hbuffers

/-- A step of the kernel alone. -/
theorem Inv.kernel (h : Inv s published log) {kernel : RelationKernel M} (action : RootAction M)
    (hstep : s.toRoot.step action = { s.toRoot with kernel := kernel })
    (hbuffers : kernel.root.buffers = s.kernel.root.buffers) :
    Stepped s { s with kernel := kernel } published log [] :=
  h.quiet (world_kernel h.sound hstep rfl hbuffers) h.closed rfl rfl h.keeps.valid (.refl _)

/-- **Every step can be taken, and keeps the invariant.** -/
theorem Inv.exists_step (h : Inv s published log) (action : ClientAction M) :
    ∃ s' events, s.step action = some (s', events) ∧ Stepped s s' published log events := by
  have hstay : Stepped s s published log [] :=
    h.quiet (world_sublist h.sound rfl fun _ htx => htx) h.closed rfl rfl h.keeps.valid (.refl _)
  cases action with
  | createRelation metadata persisted =>
    refine ⟨_, _, rfl, h.kernel (.createRelation metadata persisted) rfl ?_⟩
    rcases s.kernel.createRelation_cases metadata persisted with ⟨e, he⟩ | ⟨_, -, -, -, -, hpublished⟩
    · rw [he]
    · exact buffers_of_published hpublished rfl
  | installRule rule source settled persisted =>
    refine ⟨_, _, rfl, h.kernel (.installRule rule source settled persisted) rfl ?_⟩
    rcases hresult : s.kernel.installRule rule source settled persisted with _ | result
    · rfl
    rcases s.kernel.installRule_cases rule source settled persisted hresult with
      ⟨e, rfl⟩ | ⟨_, -, -, -, -, -, hpublished⟩
    · rfl
    · exact buffers_of_published hpublished rfl
  | disableRule ruleId settled persisted =>
    refine ⟨_, _, rfl, h.kernel (.disableRule ruleId settled persisted) rfl ?_⟩
    rcases s.kernel.disableRule_cases ruleId settled persisted with ⟨e, he⟩ | ⟨_, -, -, hpublished⟩
    · rw [he]
    · exact buffers_of_published hpublished rfl
  | begin =>
    refine ⟨_, _, rfl, h.quiet (world_begin h.sound) (fun tx htx => ?_) rfl ?_ h.keeps.valid (.refl _)⟩
    · rcases mem_append.mp htx with hold | hnew
      · exact h.closed tx hold
      · rw [mem_singleton.mp hnew]
        exact ClientTransaction.closed_new _
    · unfold owed
      simp only [flatMap_append, flatMap_singleton]
      have hnone : (ClientTransaction.new s.kernel.root).owed = [] := rfl
      rw [hnone, append_nil]
  | act i action =>
    simp only [step]
    rcases htx : s.transactions[i]? with _ | tx
    · exact ⟨_, _, rfl, hstay⟩
    dsimp only
    by_cases happly : isApply action = true
    · rw [if_pos happly]
      exact ⟨_, _, rfl, hstay⟩
    · rw [if_neg happly]
      exact ⟨_, _, rfl, h.act htx action⟩
  | apply i id expected edits supply token =>
    simp only [step]
    rcases htx : s.transactions[i]? with _ | tx
    · exact ⟨_, _, rfl, hstay⟩
    dsimp only
    rcases tx.applyBuffer_cases s.floor h.keeps.valid id expected edits supply token with
      ⟨results, answer, happly, hanswer, hvalid, hevicts⟩ | ⟨tx', results, happly, hstages⟩
    · obtain ⟨pre, post, hlist, hset, -⟩ := exists_split htx
      have hsame : s.transactions.set i tx = s.transactions := by rw [hset, ← hlist]
      have hquiet : Stepped s { s with
          transactions := s.transactions.set i tx, results := results } published log [] := by
        refine h.quiet (world_sublist h.sound rfl fun _ hx => hsame ▸ hx) (fun x hx => ?_) rfl ?_
          hvalid hevicts
        · exact h.closed x (hsame ▸ hx)
        · unfold owed
          dsimp only
          rw [hsame]
      rw [happly]
      cases answer with
      | error e => exact ⟨_, _, rfl, hquiet⟩
      | ok status =>
        cases status with
        | staged => exact absurd rfl hanswer
        | stale => exact ⟨_, _, rfl, hquiet⟩
    · rw [happly]
      exact ⟨_, _, rfl, h.stages htx hstages⟩
  | commit i settled supply persisted retained rest =>
    simp only [step]
    rcases htx : s.transactions[i]? with _ | tx
    · exact ⟨_, _, rfl, hstay⟩
    dsimp only
    cases hcommit : s.kernel.commit settled (supply.atLeast s.floor) persisted tx.root with
    | mk kernel answer =>
      obtain ⟨results, hresults, hcompletes⟩ :=
        h.commitResults (mem_of_getElem? htx) settled supply persisted retained rest hcommit
      dsimp only
      rw [hresults]
      exact ⟨_, _, rfl, h.commit htx hcommit hcompletes⟩
  | settle i =>
    simp only [step]
    rcases hi : s.settling[i]? with _ | queue
    · exact ⟨_, _, rfl, hstay⟩
    cases queue with
    | nil => exact ⟨_, _, rfl, hstay⟩
    | cons p queue => exact ⟨_, _, rfl, h.settle hi⟩
  | drop i =>
    simp only [step]
    rcases htx : s.transactions[i]? with _ | tx
    · exact ⟨_, _, rfl, hstay⟩
    exact ⟨_, _, rfl, h.drop htx⟩

/-- **The invariant holds in every run.** -/
theorem Run.inv (h : Run s published log) : Inv s published log := by
  induction h with
  | start => exact inv_start
  | step _ action hstep ih =>
    obtain ⟨s', events, hsome, hstepped⟩ := ih.exists_step action
    obtain ⟨rfl, rfl⟩ := Prod.mk.inj (some.inj (hstep.symm.trans hsome))
    exact ih.stepped hstepped

/-- **Applies that are settled once and truthfully**, in a state after what happened to the table. -/
structure Settled (s : ClientSystem M) (published : List BufferStates) (log : List ClientEvent) :
    Prop where
  /-- Every reservation has one outcome, or a transaction holds it that is open or has just ended. -/
  once : ∀ token, log.countP (ClientEvent.reserves token) = log.countP (ClientEvent.finishes token) +
    if ∃ e ∈ s.owed, e.token = token then 1 else 0
  /-- The pending entries are those that are held, under the buffer and revision of the reservation. -/
  pending : ∀ e, e ∈ s.results.entries ∧ e.outcome = .pending ↔ e ∈ s.owed
  /-- An outcome is final and truthful, and it takes the place of what the token has reserved. -/
  outcome : ∀ before result, .finished before result ∈ log → ∃ e, before = some e ∧
    e.outcome = .pending ∧ e.token = result.token ∧ e.buffer = result.buffer ∧
    .reserved e.token e.buffer e.revision ∈ log ∧ result.outcome ≠ .pending ∧
    Truthful published e result
  /-- The bytes are those of the stored results, and within the limit. -/
  bytes : s.results.bytes = (s.results.entries.map BufferApplyResult.retainedBytes).sum ∧
    s.results.bytes ≤ ClientResults.maxResultBytes
  /-- A revision has one text. -/
  text : ∀ id revision text text', TextAt published id revision text →
    TextAt published id revision text' → text = text'
  /-- Every step can be taken, and no pending entry goes before it has its outcome. -/
  kept : ∀ action, ∃ s' events, s.step action = some (s', events) ∧
    ∀ e ∈ s.results.entries, e.outcome = .pending → e ∈ s'.results.entries ∨
      ∃ before result, .finished before result ∈ events ∧ result.token = e.token

/-- **Client applies are settled exactly once and truthfully**, whatever transactions do in whatever
order. -/
theorem client_applies_settled (h : Run s published log) : s.Settled published log := by
  have hinv := h.inv
  refine ⟨fun token => ?_, hinv.keeps.pending, fun before result hmem => ?_,
    ⟨hinv.keeps.valid.bytes, hinv.keeps.valid.bytes_le⟩, fun id revision text text' ht ht' =>
      hinv.toKnown.textAt_unique ht ht', fun action => ?_⟩
  · rw [hinv.keeps.once, List.Nodup.count hinv.keeps.nodup]
    simp only [mem_map]
  · obtain ⟨e, hbefore, hpending, hsettles, hreserved, htrue⟩ := hinv.keeps.finished before result hmem
    exact ⟨e, hbefore, hpending, hsettles.token.symm, hsettles.buffer.symm, hreserved,
      hsettles.outcome, htrue⟩
  · obtain ⟨s', events, hstep, hstepped⟩ := hinv.exists_step action
    refine ⟨s', events, hstep, fun e he hpending => ?_⟩
    refine (hstepped.ends e ((hinv.keeps.pending e).mp ⟨he, hpending⟩)).imp_left fun howed => ?_
    exact ((hstepped.keeps.pending e).mpr howed).1

/-- Steps that are taken one after the other. -/
def runAll (s : ClientSystem M) (published : List BufferStates) (log : List ClientEvent) :
    List (ClientAction M) → Option (ClientSystem M × List BufferStates × List ClientEvent)
  | [] => some (s, published, log)
  | action :: actions =>
    match s.step action with
    | none => none
    | some (s', events) => s'.runAll (published ++ [s'.kernel.root.buffers]) (log ++ events) actions

theorem Run.runAll : ∀ {actions : List (ClientAction M)} {s s' : ClientSystem M}
    {published published' : List BufferStates} {log log' : List ClientEvent}, Run s published log →
    s.runAll published log actions = some (s', published', log') → Run s' published' log'
  | [], _, _, _, _, _, _, h, hrun => by
    obtain ⟨rfl, hrest⟩ := Prod.mk.inj (some.inj hrun)
    obtain ⟨rfl, rfl⟩ := Prod.mk.inj hrest
    exact h
  | action :: actions, _, _, _, _, _, _, h, hrun => by
    unfold ClientSystem.runAll at hrun
    split at hrun
    · cases hrun
    rename_i hstep
    exact (h.step action hstep).runAll hrun

/-- A buffer is created and written with a token. -/
def oneApply : List (ClientAction Entries) :=
  [.begin, .act 0 (.createBuffer ⟨.ofByte 1, ⟨0⟩, .durable, .span⟩),
    .apply 0 (.ofByte 1) 0 [⟨0, 0, ['a']⟩] ⟨0, 0⟩ (some ⟨7, by decide⟩),
    .commit 0 (.ok ()) ⟨0, 0⟩ (.ok ()) (fun _ => 1) (fun _ => .default), .begin, .settle 0, .drop 0]

theorem client_applies_settled_oneApply : ∃ (s : ClientSystem Entries) (published : _) (log : _),
    Run s published log ∧
      log = [.reserved ⟨7, by decide⟩ ⟨1, by decide⟩ 0,
        .finished (some ⟨⟨7, by decide⟩, ⟨1, by decide⟩, 0, .pending⟩)
          ⟨⟨7, by decide⟩, ⟨1, by decide⟩, 1, .ok ⟨[⟨0, 0, ['a']⟩]⟩ 1⟩] ∧
      s.Settled published log := by
  have hlog : ((start.runAll [BufferStates.empty] [] oneApply).map fun r => r.2.2) =
      some [.reserved ⟨7, by decide⟩ ⟨1, by decide⟩ 0,
        .finished (some ⟨⟨7, by decide⟩, ⟨1, by decide⟩, 0, .pending⟩)
          ⟨⟨7, by decide⟩, ⟨1, by decide⟩, 1, .ok ⟨[⟨0, 0, ['a']⟩]⟩ 1⟩] := by
    decide +kernel
  obtain ⟨⟨s, published, log⟩, hrun, rfl⟩ := Option.map_eq_some_iff.mp hlog
  exact ⟨s, published, _, Run.start.runAll hrun, rfl, client_applies_settled (Run.start.runAll hrun)⟩

end ClientSystem

end Mica
