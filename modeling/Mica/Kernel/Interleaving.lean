import Mica.Kernel.Root

/-!
# Kernel/Interleaving — any number of transactions on one kernel

Transactions begin on any published snapshot, write, read and commit in any order; each commit takes
the root as it finds it.  What holds of every run needs one thing of the catalog: the index behind
the key lookups of a functional relation keeps every row (`KernelAction.Fits`).

* `RelationKernel.factAnswer_commit` — this kernel is the whole one of `Kernel/Root` as far as facts
  go.
* `KernelSystem.functionalKeys_of_fits` — every published snapshot has one row for each functional
  key.
* `KernelSystem.commit_isolated` — a commit changes nothing or exactly what it wrote, and only if no
  one else has changed the row at a functional key it wrote.
* `KernelSystem.two_rows_of_one_key`, `KernelSystem.lost_update` — with an index that repeats a
  column both fail.
-/

open OrderCode SortedList List

namespace Mica

/-- A kernel: the published root, and the commits that the provider has persisted. -/
structure Kernel (M : Type → Type) [ByteMap M] where
  root : Snapshot M
  log : List Commit

namespace Kernel

variable {M : Type → Type} [ByteMap M]

/-- A kernel without relations. -/
def new : Kernel M := ⟨⟨0, SortedMap.empty, [], []⟩, []⟩

/-- Whether a relation of a snapshot is durable. -/
def isDurable (snapshot : Snapshot M) (relation : RelationId) : Bool :=
  (snapshot.relations.get? relation).any fun state => state.metadata.durability = .durable

/-- The commit that `persist_commit_against` hands to the provider: the changes of durable relations,
unless nothing is left. -/
def persistentCommit (snapshot : Snapshot M) (commit : Commit) :
    Except KernelError (Option Commit) :=
  match commit.changes.find? fun c => (snapshot.relations.get? c.relation).isNone with
  | some c => .error (.unknownRelation c.relation)
  | none =>
    let changes := commit.changes.filter fun c => isDurable snapshot c.relation
    if commit.catalogChanges.isEmpty && changes.isEmpty then .ok none
    else .ok (some ⟨commit.version, commit.catalogChanges, changes⟩)

/-- The end of every commit: persist, then publish.  `persisted` is the provider's answer. -/
def publish (snapshot next : Snapshot M) (commit : Commit) (persisted : Except String Unit)
    (kernel : Kernel M) : Kernel M × Except KernelError Commit :=
  match persistentCommit snapshot commit with
  | .error e => (kernel, .error e)
  | .ok none => ({ kernel with root := next }, .ok commit)
  | .ok (some persistent) =>
    match persisted with
    | .error message => (kernel, .error (.persistence message))
    | .ok () => (⟨next, kernel.log ++ [persistent]⟩, .ok commit)

/-- `create_relation`. -/
def createRelation (metadata : RelationMetadata) (persisted : Except String Unit)
    (kernel : Kernel M) : Kernel M × Except KernelError Commit :=
  match (RelationState.empty metadata : Except KernelError (RelationState M)) with
  | .error e => (kernel, .error e)
  | .ok state =>
    if (kernel.root.relations.get? metadata.id).isSome then
      (kernel, .error (.relationAlreadyExists metadata.id))
    else
      let commit : Commit := ⟨kernel.root.version + 1, [.relationCreated metadata], []⟩
      let next : Snapshot M := { kernel.root with
        version := kernel.root.version + 1
        relations := kernel.root.relations.insert metadata.id state
        commits := kernel.root.commits ++ [commit] }
      kernel.publish kernel.root next commit persisted

/-- `Transaction::commit`. -/
def commit (settled : Except KernelError Unit) (persisted : Except String Unit)
    (tx : Transaction M) (kernel : Kernel M) : Kernel M × Except KernelError Commit :=
  match tx.prepare settled kernel.root with
  | .error e => (kernel, .error e)
  | .ok (next, commit) => kernel.publish kernel.root next commit persisted

variable {kernel kernel' : Kernel M}

/-- Publication fails and changes nothing, or makes the next snapshot the root. -/
theorem publish_cases (snapshot next : Snapshot M) (commit : Commit)
    (persisted : Except String Unit) (kernel : Kernel M) :
    (∃ e, kernel.publish snapshot next commit persisted = (kernel, .error e)) ∨
      ∃ log, kernel.publish snapshot next commit persisted = (⟨next, log⟩, .ok commit) := by
  unfold publish
  split
  · next e _ => exact .inl ⟨e, rfl⟩
  · exact .inr ⟨kernel.log, rfl⟩
  · split
    · next message => exact .inl ⟨.persistence message, rfl⟩
    · next persistent _ _ => exact .inr ⟨kernel.log ++ [persistent], rfl⟩

/-- **Everything a commit can do to the kernel.** -/
theorem commit_cases (settled : Except KernelError Unit) (persisted : Except String Unit)
    (tx : Transaction M) (kernel : Kernel M) :
    (∃ e, kernel.commit settled persisted tx = (kernel, .error e)) ∨
      ∃ next commit log, tx.prepare settled kernel.root = .ok (next, commit) ∧
        kernel.commit settled persisted tx = (⟨next, log⟩, .ok commit) := by
  unfold Kernel.commit
  split
  · next e _ => exact .inl ⟨e, rfl⟩
  · next next commit hprepare =>
    rcases publish_cases kernel.root next commit persisted kernel with h | ⟨log, h⟩
    · exact .inl h
    · exact .inr ⟨next, commit, log, hprepare, h⟩

/-- **Everything the creation of a relation can do to the kernel.** -/
theorem createRelation_cases (metadata : RelationMetadata) (persisted : Except String Unit)
    (kernel : Kernel M) :
    (∃ e, kernel.createRelation metadata persisted = (kernel, .error e)) ∨
      ∃ state log commit, (RelationState.empty metadata : Except KernelError (RelationState M)) =
          .ok state ∧
        kernel.root.relations.get? metadata.id = none ∧
        commit = ⟨kernel.root.version + 1, [.relationCreated metadata], []⟩ ∧
        kernel.createRelation metadata persisted = (⟨{ kernel.root with
          version := kernel.root.version + 1
          relations := kernel.root.relations.insert metadata.id state
          commits := kernel.root.commits ++ [commit] }, log⟩, .ok commit) := by
  unfold createRelation
  split
  · next e _ => exact .inl ⟨e, rfl⟩
  rename_i state hstate
  split
  · exact .inl ⟨_, rfl⟩
  rename_i hfresh
  have hfresh := Option.not_isSome_iff_eq_none.mp hfresh
  dsimp only
  rcases publish_cases kernel.root _ _ persisted kernel with h | ⟨log, h⟩
  · exact .inl h
  · exact .inr ⟨state, log, _, hstate, hfresh, rfl, h⟩

end Kernel

/-! ## The facts of the whole kernel -/

namespace RelationKernel

variable {M : Type → Type} [ByteMap M]

/-- The facts of the kernel. -/
def factKernel (kernel : RelationKernel M) : Kernel M :=
  ⟨kernel.root.facts, kernel.log.map RootCommit.facts⟩

/-- The facts of an answer. -/
def factAnswer (answer : RelationKernel M × Except KernelError RootCommit) :
    Kernel M × Except KernelError Commit :=
  (answer.1.factKernel, answer.2.map RootCommit.facts)

/-- A commit without buffers is published as its facts are. -/
theorem factAnswer_publish (kernel : RelationKernel M) (snapshot : Snapshot M) (next : Root M)
    (commit : RootCommit) (persisted : Except String Unit) (hbuffers : commit.bufferChanges = []) :
    factAnswer (kernel.publish snapshot next commit persisted) =
      kernel.factKernel.publish snapshot next.facts commit.facts persisted := by
  have hpersistent : Kernel.persistentCommit snapshot commit.facts =
      (persistentCommit snapshot commit).map (Option.map RootCommit.facts) := by
    unfold Kernel.persistentCommit persistentCommit
    rw [hbuffers, List.map_nil]
    cases commit.facts.changes.find? fun c => (snapshot.relations.get? c.relation).isNone with
    | some c => rfl
    | none =>
      dsimp only
      rw [List.isEmpty_nil, Bool.and_true]
      by_cases hnone : (commit.facts.catalogChanges.isEmpty &&
          (commit.facts.changes.filter fun c => isDurable snapshot c.relation).isEmpty) = true
      · exact (if_pos hnone).trans (by rw [if_pos hnone]; rfl)
      · exact (if_neg hnone).trans (by rw [if_neg hnone]; rfl)
  rw [publish, Kernel.publish, hpersistent]
  cases persistentCommit snapshot commit with
  | error e => rfl
  | ok persistent =>
    cases persistent with
    | none => rfl
    | some persistent =>
      cases persisted with
      | error message => rfl
      | ok _ => exact Prod.ext (congrArg (Kernel.mk _) List.map_append) rfl

/-- Without buffers a relation is created as in a kernel of facts. -/
theorem factAnswer_createRelation {kernel : RelationKernel M} (metadata : RelationMetadata)
    (persisted : Except String Unit) (hbuffers : kernel.root.buffers = BufferStates.empty) :
    factAnswer (kernel.createRelation metadata persisted) =
      kernel.factKernel.createRelation metadata persisted := by
  have hfree : ((kernel.root.facts.relations.get? metadata.id).isSome
      || (kernel.root.buffers.get? metadata.id).isSome
      || (kernel.root.buffers.named metadata.name).isSome) =
        (kernel.root.facts.relations.get? metadata.id).isSome := by
    rw [hbuffers]
    exact (Bool.or_false _).trans (Bool.or_false _)
  unfold createRelation Kernel.createRelation
  rw [hfree]
  cases (RelationState.empty metadata : Except KernelError (RelationState M)) with
  | error e => rfl
  | ok state =>
    by_cases hexists : (kernel.root.facts.relations.get? metadata.id).isSome = true
    · exact (congrArg factAnswer (if_pos hexists)).trans (if_pos hexists).symm
    · have hpublish := factAnswer_publish kernel kernel.root.facts
        ⟨⟨kernel.root.facts.version + 1, kernel.root.facts.relations.insert metadata.id state,
            kernel.root.facts.rules, kernel.root.facts.commits ++
              [⟨kernel.root.facts.version + 1, [.relationCreated metadata], []⟩]⟩, kernel.root.buffers⟩
        ⟨⟨kernel.root.facts.version + 1, [.relationCreated metadata], []⟩, []⟩ persisted rfl
      exact (congrArg factAnswer (if_neg hexists)).trans (hpublish.trans (if_neg hexists).symm)

/-- So is a transaction that writes no buffer. -/
theorem factAnswer_commit (kernel : RelationKernel M) {tx : RootTransaction M}
    (settled : Except KernelError Unit) (supply : Supply) (persisted : Except String Unit)
    (hbuffers : tx.buffers.bufferWrites = SortedMap.empty) :
    factAnswer (kernel.commit settled supply persisted tx) =
      kernel.factKernel.commit settled persisted tx.facts := by
  have hmaterialized : materializeBuffers kernel.root.facts.relationMetadata kernel.root.buffers supply
      tx.buffers = .ok (kernel.root.buffers, []) := by
    rw [materializeBuffers, hbuffers]
    rfl
  have hprepare : tx.facts.prepare settled kernel.root.facts =
      (tx.prepare settled supply kernel.root).map fun prepared =>
        (prepared.1.facts, prepared.2.facts) := by
    unfold RootTransaction.prepare Transaction.prepare
    rw [hmaterialized]
    split_ifs with hmoved
    · cases tx.facts.validateConflicts kernel.root.facts with
      | error e => rfl
      | ok _ =>
        cases tx.facts.buildNextSnapshot settled kernel.root.facts with
        | error e => rfl
        | ok built => rfl
    · cases tx.facts.buildNextSnapshot settled kernel.root.facts with
      | error e => rfl
      | ok built => rfl
  unfold RelationKernel.commit Kernel.commit
  rw [show kernel.factKernel.root = kernel.root.facts from rfl, hprepare]
  cases hprepared : tx.prepare settled supply kernel.root with
  | error e => rfl
  | ok prepared =>
    refine factAnswer_publish kernel _ _ _ persisted ?_
    have := (RootTransaction.prepare_eq_ok hprepared).2
    rw [hmaterialized] at this
    exact (Prod.mk.inj (Except.ok.inj this)).2.symm

end RelationKernel

/-! ## Runs -/

/-- A kernel with every snapshot it has published, the newest first, and its open transactions. -/
structure KernelSystem (M : Type → Type) [ByteMap M] where
  kernel : Kernel M
  published : List (Snapshot M)
  transactions : List (Transaction M)

/-- One step of the kernel or of the `i`-th open transaction.  How the provider, the maintenance of
derived relations and the evaluation of rules answer is part of the step. -/
inductive KernelAction (M : Type → Type) [ByteMap M] where
  | createRelation (metadata : RelationMetadata) (persisted : Except String Unit)
  | begin (age : ℕ)
  | assert (i : ℕ) (relation : RelationId) (tuple : Tuple)
  | retract (i : ℕ) (relation : RelationId) (tuple : Tuple)
  | replaceFunctional (i : ℕ) (relation : RelationId) (tuple : Tuple)
  | scan (i : ℕ) (derived : Except KernelError (Option (RelationState M))) (relation : RelationId)
      (bindings : Bindings)
  | commit (i : ℕ) (settled : Except KernelError Unit) (persisted : Except String Unit)

/-- **The condition on a step**: a functional relation comes with an index that its key lookups can
rely on. -/
def KernelAction.Fits {M : Type → Type} [ByteMap M] : KernelAction M → Prop
  | .createRelation metadata _ => ∀ positions,
      metadata.conflictPolicy = .functional positions → metadata.FindsKeys positions
  | _ => True

namespace KernelSystem

variable {M : Type → Type} [ByteMap M]

def start : KernelSystem M := ⟨Kernel.new, [Kernel.new.root], []⟩

/-- The kernel after an operation, with the root it has published. -/
def afterPublish (result : Kernel M × Except KernelError Commit) (s : KernelSystem M) :
    KernelSystem M :=
  match result with
  | (kernel, .ok _) => { s with kernel := kernel, published := kernel.root :: s.published }
  | (kernel, .error _) => { s with kernel := kernel }

/-- **One step**; a step of a transaction or a snapshot that is not there does nothing. -/
def step (s : KernelSystem M) : KernelAction M → KernelSystem M
  | .createRelation metadata persisted =>
    s.afterPublish (s.kernel.createRelation metadata persisted)
  | .begin age =>
    { s with transactions := s.transactions ++ (s.published[age]?.map Transaction.new).toList }
  | .assert i relation tuple =>
    { s with transactions := s.transactions.modify i fun tx => (tx.assert relation tuple).1 }
  | .retract i relation tuple =>
    { s with transactions := s.transactions.modify i fun tx => (tx.retract relation tuple).1 }
  | .replaceFunctional i relation tuple =>
    { s with transactions := s.transactions.modify i fun tx =>
        (tx.replaceFunctional relation tuple).1 }
  | .scan i derived relation bindings =>
    { s with transactions := s.transactions.modify i fun tx =>
        (tx.scan derived relation bindings).1 }
  | .commit i settled persisted =>
    match s.transactions[i]? with
    | none => s
    | some tx => ({ s with transactions := s.transactions.eraseIdx i } : KernelSystem M).afterPublish
        (s.kernel.commit settled persisted tx)

/-- A run from the empty kernel. -/
def run (actions : List (KernelAction M)) : KernelSystem M := actions.foldl step start

/-! ## The invariant -/

/-- **What every step keeps**: the root is the newest published snapshot and grew out of the others,
functional keys are keys, and every open transaction is a run over a published snapshot. -/
structure Sound (s : KernelSystem M) : Prop where
  root_mem : s.kernel.root ∈ s.published
  stored : ∀ snapshot ∈ s.published, snapshot.Stored
  finds : ∀ snapshot ∈ s.published, snapshot.FindsKeys
  keys : ∀ snapshot ∈ s.published, snapshot.FunctionalKeys
  follows : ∀ snapshot ∈ s.published, snapshot.Follows s.kernel.root
  version_le : ∀ snapshot ∈ s.published, snapshot.version ≤ s.kernel.root.version
  runs : ∀ tx ∈ s.transactions, ∃ base ∈ s.published, ∃ log, Transaction.Run base tx log

variable {s : KernelSystem M}

theorem sound_start : (start : KernelSystem M).Sound where
  root_mem := mem_singleton_self _
  stored snapshot h := by
    obtain rfl := mem_singleton.mp h
    exact nofun
  finds snapshot h := by
    obtain rfl := mem_singleton.mp h
    exact nofun
  keys snapshot h := by
    obtain rfl := mem_singleton.mp h
    exact nofun
  follows snapshot h := by
    obtain rfl := mem_singleton.mp h
    exact ⟨nofun, fun _ => rfl⟩
  version_le snapshot h := by
    obtain rfl := mem_singleton.mp h
    exact le_rfl
  runs _ h := nomatch h

/-- A new root: it is sound by itself, newer, and has the old relations. -/
theorem Sound.publish (h : s.Sound) {next : Snapshot M} {log : List Commit}
    (hstored : next.Stored) (hfinds : next.FindsKeys) (hkeys : next.FunctionalKeys)
    (hversion : next.version = s.kernel.root.version + 1)
    (hmeta : ∀ relation state, s.kernel.root.relations.get? relation = some state →
      ∃ state', next.relations.get? relation = some state' ∧ state'.metadata = state.metadata) :
    ({ s with kernel := ⟨next, log⟩, published := next :: s.published } : KernelSystem M).Sound where
  root_mem := mem_cons_self
  stored := forall_mem_cons.mpr ⟨hstored, h.stored⟩
  finds := forall_mem_cons.mpr ⟨hfinds, h.finds⟩
  keys := forall_mem_cons.mpr ⟨hkeys, h.keys⟩
  follows := by
    refine forall_mem_cons.mpr ⟨⟨fun _ state hstate => ⟨state, hstate, rfl⟩, fun _ => rfl⟩, ?_⟩
    intro snapshot hmem
    refine ⟨fun relation state hstate => ?_, fun hsame => ?_⟩
    · obtain ⟨state', hstate', heq⟩ := (h.follows snapshot hmem).metadata_eq relation state hstate
      obtain ⟨state'', hstate'', heq'⟩ := hmeta relation state' hstate'
      exact ⟨state'', hstate'', heq'.trans heq⟩
    · have hle := h.version_le snapshot hmem
      dsimp only at hsame
      omega
  version_le := by
    refine forall_mem_cons.mpr ⟨le_rfl, fun snapshot hmem => ?_⟩
    have hle := h.version_le snapshot hmem
    dsimp only
    omega
  runs tx htx := by
    obtain ⟨base, hbase, log, hrun⟩ := h.runs tx htx
    exact ⟨base, mem_cons_of_mem _ hbase, log, hrun⟩

/-- A step of one transaction. -/
theorem Sound.modify (h : s.Sound) (i : ℕ) {f : Transaction M → Transaction M}
    (hf : ∀ {base : Snapshot M} {tx : Transaction M} {log : List Transaction.LocalWrite},
      Transaction.Run base tx log → ∃ log', Transaction.Run base (f tx) log') :
    ({ s with transactions := s.transactions.modify i f } : KernelSystem M).Sound where
  root_mem := h.root_mem
  stored := h.stored
  finds := h.finds
  keys := h.keys
  follows := h.follows
  version_le := h.version_le
  runs tx htx := by
    obtain ⟨j, hj⟩ := mem_iff_getElem?.mp htx
    rw [getElem?_modify, Option.map_eq_map, Option.map_eq_some_iff] at hj
    obtain ⟨old, hold, rfl⟩ := hj
    obtain ⟨base, hbase, log, hrun⟩ := h.runs old (mem_of_getElem? hold)
    refine ⟨base, hbase, ?_⟩
    split
    · exact hf hrun
    · exact ⟨log, hrun⟩

theorem Sound.createRelation (h : s.Sound) {metadata : RelationMetadata}
    (hfits : ∀ positions, metadata.conflictPolicy = .functional positions →
      metadata.FindsKeys positions) (persisted : Except String Unit) :
    (s.afterPublish (s.kernel.createRelation metadata persisted)).Sound := by
  rcases s.kernel.createRelation_cases metadata persisted with
    ⟨e, he⟩ | ⟨state, log, commit, hempty, hfresh, -, hres⟩
  · rwa [he]
  · rw [hres]
    obtain ⟨hmeta, hrows, -⟩ := RelationState.empty_spec hempty
    have hcases : ∀ {relation : RelationId} {state' : RelationState M},
        (s.kernel.root.relations.insert metadata.id state).get? relation = some state' →
          (relation = metadata.id ∧ state = state') ∨
            s.kernel.root.relations.get? relation = some state' := by
      intro relation state' hget
      rw [SortedMap.get?_insert] at hget
      split at hget
      · next heq => exact .inl ⟨heq, Option.some.inj hget⟩
      · exact .inr hget
    refine h.publish ?_ ?_ ?_ rfl ?_
    · intro relation state' hget
      rcases hcases hget with ⟨rfl, rfl⟩ | hold
      · exact ⟨RelationState.Built.empty hempty, congrArg RelationMetadata.id hmeta⟩
      · exact h.stored _ h.root_mem relation state' hold
    · intro relation state' positions hget hpolicy
      rcases hcases hget with ⟨rfl, rfl⟩ | hold
      · rw [hmeta] at hpolicy ⊢
        exact hfits positions hpolicy
      · exact h.finds _ h.root_mem relation state' positions hold hpolicy
    · intro relation state' positions hget hpolicy
      rcases hcases hget with ⟨rfl, rfl⟩ | hold
      · intro t u ht
        rw [hrows] at ht
        exact absurd ht (SortedSet.notMem_empty t)
      · exact h.keys _ h.root_mem relation state' positions hold hpolicy
    · intro relation state' hget
      refine ⟨state', ?_, rfl⟩
      dsimp only
      rw [SortedMap.get?_insert_of_ne fun heq => ?_, hget]
      rw [heq, hfresh] at hget
      cases hget

/-- Taking a transaction off the list. -/
theorem Sound.eraseIdx (h : s.Sound) (i : ℕ) :
    ({ s with transactions := s.transactions.eraseIdx i } : KernelSystem M).Sound :=
  { h with runs := fun tx htx => h.runs tx (mem_of_mem_eraseIdx htx) }

theorem Sound.commit (h : s.Sound) {tx : Transaction M}
    (htx : ∃ base ∈ s.published, ∃ log, Transaction.Run base tx log)
    (settled : Except KernelError Unit) (persisted : Except String Unit) :
    (s.afterPublish (s.kernel.commit settled persisted tx)).Sound := by
  rcases s.kernel.commit_cases settled persisted tx with
    ⟨e, he⟩ | ⟨next, commit, log, hprepare, hres⟩
  · rwa [he]
  · rw [hres]
    obtain ⟨base, hbase, writes, hrun⟩ := htx
    have hfollows := h.follows base hbase
    have hcurrent := h.stored _ h.root_mem
    obtain ⟨hrows, hnone⟩ := Transaction.prepare_rows hrun.tracks hcurrent hfollows hprepare
    -- a relation of the next snapshot is one of the root, with its metadata
    have hback : ∀ {relation : RelationId} {next' : RelationState M},
        next.relations.get? relation = some next' →
          ∃ state, s.kernel.root.relations.get? relation = some state ∧ next'.Stored ∧
            next'.metadata = state.metadata := by
      intro relation next' hnext
      rcases hstate : s.kernel.root.relations.get? relation with _ | state
      · cases (hnone relation hstate).symm.trans hnext
      obtain ⟨next'', hnext'', hstored, hmeta, -⟩ := hrows relation state hstate
      obtain rfl : next' = next'' := Option.some.inj (hnext.symm.trans hnext'')
      exact ⟨state, rfl, hstored, hmeta⟩
    refine h.publish ?_ ?_ ?_ ?_ ?_
    · intro relation next' hnext
      obtain ⟨state, hstate, hstored, hmeta⟩ := hback hnext
      exact ⟨hstored, by rw [hmeta]; exact (hcurrent relation state hstate).2⟩
    · intro relation next' positions hnext hpolicy
      obtain ⟨state, hstate, -, hmeta⟩ := hback hnext
      rw [hmeta] at hpolicy ⊢
      exact h.finds _ h.root_mem relation state positions hstate hpolicy
    · exact Transaction.prepare_unique hrun hfollows (h.stored base hbase) hcurrent
        (h.finds base hbase) (h.finds _ h.root_mem) (h.keys base hbase) (h.keys _ h.root_mem)
        hprepare
    · obtain ⟨-, relations, changes, -, -, rfl⟩ := Transaction.prepare_eq_ok hprepare
      rfl
    · intro relation state hstate
      obtain ⟨next', hnext, -, hmeta, -⟩ := hrows relation state hstate
      exact ⟨next', hnext, hmeta⟩

/-- **Every step keeps the invariant.** -/
theorem Sound.step (h : s.Sound) {a : KernelAction M} (ha : a.Fits) : (s.step a).Sound := by
  have hwrite : ∀ (relation : RelationId) (t : Tuple) (c : LocalChange) {base : Snapshot M}
      {tx : Transaction M} {log : List Transaction.LocalWrite}, Transaction.Run base tx log →
        ∃ log', Transaction.Run base (tx.applyLocalChange relation t c).1 log' := by
    intro relation t c base tx log hrun
    generalize hres : tx.applyLocalChange relation t c = res
    obtain ⟨tx', r⟩ := res
    cases r with
    | error e => exact ⟨log, hrun.refused hres⟩
    | ok u => exact ⟨_, hrun.wrote hres⟩
  cases a with
  | createRelation metadata persisted => exact h.createRelation ha persisted
  | begin age =>
    refine { h with runs := fun tx htx => ?_ }
    rcases mem_append.mp htx with htx | htx
    · exact h.runs tx htx
    · obtain ⟨base, hbase, rfl⟩ := Option.map_eq_some_iff.mp (Option.mem_toList.mp htx)
      exact ⟨base, mem_of_getElem? hbase, [], Transaction.Run.new⟩
  | assert i relation t => exact h.modify i (hwrite relation t .assert)
  | retract i relation t => exact h.modify i (hwrite relation t .retract)
  | replaceFunctional i relation t =>
    refine h.modify i fun hrun => ?_
    obtain ⟨log', hrun'⟩ := hrun.replaceFunctional relation t
    exact ⟨_, hrun'⟩
  | scan i derived relation bindings => exact h.modify i fun hrun => ⟨_, hrun.read⟩
  | commit i settled persisted =>
    simp only [KernelSystem.step]
    split
    · exact h
    · next tx htx =>
      exact (h.eraseIdx i).commit (h.runs tx (mem_of_getElem? htx)) settled persisted

theorem sound_run {actions : List (KernelAction M)} (h : ∀ a ∈ actions, a.Fits) :
    (run actions).Sound := by
  have hfold : ∀ {s : KernelSystem M}, s.Sound → (actions.foldl KernelSystem.step s).Sound := by
    induction actions with
    | nil => exact fun h => h
    | cons a actions ih =>
      obtain ⟨ha, hs⟩ := forall_mem_cons.mp h
      exact fun hsound => ih hs (hsound.step ha)
  exact hfold sound_start

/-- **Functional keys are keys**: in every run whose functional relations come with lookups that find
every row, no published snapshot has two rows of one key. -/
theorem functionalKeys_of_fits {actions : List (KernelAction M)} (h : ∀ a ∈ actions, a.Fits) :
    ∀ snapshot ∈ (run actions).published, snapshot.FunctionalKeys :=
  (sound_run h).keys

/-- **A commit that is atomic and isolated.**  It fails and changes nothing; or the root gets the
effective changes, in the relations that were written and nowhere else, and at every functional key
that was written no one has changed the row since the transaction began. -/
def CommitsIsolated (settled : Except KernelError Unit) (persisted : Except String Unit)
    (tx : Transaction M) (kernel : Kernel M) : Prop :=
  (∃ e, kernel.commit settled persisted tx = (kernel, .error e)) ∨
    ∃ next log commit, kernel.commit settled persisted tx = (⟨next, log⟩, .ok commit) ∧
      next.version = kernel.root.version + 1 ∧
      (∀ relation, tx.writes.get? relation = none →
        next.relations.get? relation = kernel.root.relations.get? relation) ∧
      (∀ relation t, next.Holds relation t ↔ CommittedRow (tx.changes relation).get?
        (tx.base.Holds relation) (kernel.root.Holds relation) t) ∧
      ∀ relation state positions, tx.base.relations.get? relation = some state →
        state.metadata.conflictPolicy = .functional positions →
        ∀ t, ((tx.changes relation).get? t).isSome → ∀ u, u.select positions = t.select positions →
          (kernel.root.Holds relation u ↔ tx.base.Holds relation u)

/-- **Every commit is atomic and isolated**, in every run whose functional relations come with lookups
that find every row. -/
theorem commit_isolated {actions : List (KernelAction M)} (h : ∀ a ∈ actions, a.Fits)
    {tx : Transaction M} (htx : tx ∈ (run actions).transactions)
    (settled : Except KernelError Unit) (persisted : Except String Unit) :
    CommitsIsolated settled persisted tx (run actions).kernel := by
  have hsound := sound_run h
  rcases (run actions).kernel.commit_cases settled persisted tx with
    herr | ⟨next, commit, log, hprepare, hres⟩
  · exact .inl herr
  obtain ⟨base, hbase, writes, hrun⟩ := hsound.runs tx htx
  obtain rfl := hrun.tracks.base_eq
  have hcurrent := hsound.stored _ hsound.root_mem
  have hfollows := hsound.follows _ hbase
  obtain ⟨hrows, hnone⟩ := Transaction.prepare_rows hrun.tracks hcurrent hfollows hprepare
  refine .inr ⟨next, log, commit, hres, ?_, ?_, ?_, ?_⟩
  · obtain ⟨-, relations, changes, -, -, rfl⟩ := Transaction.prepare_eq_ok hprepare
    rfl
  · intro relation hunwritten
    rcases hstate : (run actions).kernel.root.relations.get? relation with _ | state
    · exact hnone relation hstate
    obtain ⟨next', hnext, -, -, hsame, -⟩ := hrows relation state hstate
    rw [hnext, hsame hunwritten]
  · intro relation t
    cases hstate : (run actions).kernel.root.relations.get? relation with
    | none =>
      -- an unknown relation cannot have been written
      have hnot : ∀ snapshot : Snapshot M, snapshot.relations.get? relation = none →
          ¬ snapshot.Holds relation t := fun _ hget ⟨_, hget', _⟩ => nomatch hget.symm.trans hget'
      refine iff_of_false (hnot next (hnone relation hstate)) fun hcommitted => ?_
      rcases hcommitted with ⟨hrow, -⟩ | hassert
      · exact hnot _ hstate hrow
      have hlast : Transaction.lastChange relation t writes = some .assert :=
        (hrun.tracks.changes relation t).symm.trans hassert
      obtain ⟨state, hchecked, -⟩ := hrun.tracks.checked relation t _ hlast
      obtain ⟨state', hstate', -⟩ :=
        hfollows.metadata_eq relation state (Snapshot.relation_eq_ok.mp hchecked)
      cases hstate.symm.trans hstate'
    | some state =>
      obtain ⟨next', hnext, -, -, -, hcommitted⟩ := hrows relation state hstate
      rw [Snapshot.holds_iff hnext, hcommitted, CommittedRow, CommittedRow,
        Snapshot.holds_iff hstate]
  · intro relation state positions hstate hpolicy t ht u hu
    exact Transaction.prepare_agrees hrun hfollows (hsound.stored _ hbase) hcurrent
      (hsound.finds _ hbase) (hsound.finds _ hsound.root_mem) (hsound.keys _ hbase)
      (hsound.keys _ hsound.root_mem) hprepare hstate hpolicy ht u hu

/-- A key and a value, kept in row order only. -/
def keyValue : RelationMetadata where
  id := .ofByte 7
  name := ⟨0⟩
  arity := 2
  argumentNames := [none, none]
  indexes := [TupleIndexSpec.allPositions 2]
  conflictPolicy := .functional [0]
  durability := .durable

/-- The steps of a transaction that replaces the value of the one key and commits. -/
def replaceValue (value : Bool) : List (KernelAction Entries) :=
  [.begin 0, .replaceFunctional 0 keyValue.id [.bool true, .bool value],
    .commit 0 (.ok ()) (.ok ())]

theorem fits_replaceValue (value : Bool) : ∀ a ∈ replaceValue value, a.Fits := by
  simp [replaceValue, KernelAction.Fits]

theorem fits_keyValue :
    (KernelAction.createRelation keyValue (.ok ()) : KernelAction Entries).Fits := by
  intro positions hpolicy
  obtain rfl : [0] = positions := ConflictPolicy.functional.inj hpolicy
  decide

/-- Two replacements of the value. -/
theorem functionalKeys_of_fits_replaceValue :
    (run (.createRelation keyValue (.ok ()) ::
      (replaceValue true ++ replaceValue false))).kernel.root.FunctionalKeys := by
  have hfits : ∀ a ∈ KernelAction.createRelation keyValue (.ok ()) ::
      (replaceValue true ++ replaceValue false), a.Fits :=
    forall_mem_cons.mpr ⟨fits_keyValue,
      forall_mem_append.mpr ⟨fits_replaceValue true, fits_replaceValue false⟩⟩
  exact functionalKeys_of_fits hfits _ (sound_run hfits).root_mem

/-- A transaction that began before the value was replaced, and retracts the old one. -/
def overtaken : List (KernelAction Entries) :=
  .createRelation keyValue (.ok ()) :: (replaceValue true ++
    [.begin 0, .begin 0, .replaceFunctional 1 keyValue.id [.bool true, .bool false],
      .commit 1 (.ok ()) (.ok ()), .retract 0 keyValue.id [.bool true, .bool true]])

theorem commit_isolated_overtaken :
    ∃ tx ∈ (run overtaken).transactions,
      CommitsIsolated (.ok ()) (.ok ()) tx (run overtaken).kernel := by
  obtain ⟨tx, htx⟩ : ∃ tx, tx ∈ (run overtaken).transactions := ⟨_, mem_cons_self⟩
  refine ⟨tx, htx, commit_isolated (forall_mem_cons.mpr ⟨fits_keyValue, ?_⟩) htx _ _⟩
  refine forall_mem_append.mpr ⟨fits_replaceValue true, ?_⟩
  simp [KernelAction.Fits]

/-! ## Where it goes wrong -/

/-- The same with an index that asks for the key twice, and so passes for one of the whole row. -/
def keyTwice : RelationMetadata :=
  { keyValue with indexes := [TupleIndexSpec.allPositions 2, ⟨[0, 0]⟩] }

/-- The value goes from `true` to `false`.  The new row comes first in tuple order, so the old one,
when it goes, takes the index entry of the new one with it. -/
def misplaced : List (KernelAction Entries) :=
  .createRelation keyTwice (.ok ()) :: (replaceValue true ++ replaceValue false)

/-- The next replacement does not find the row of its key and adds a second one. -/
theorem two_rows_of_one_key :
    ∃ snapshot ∈ (run (misplaced ++ replaceValue true)).published, ¬ snapshot.FunctionalKeys := by
  refine ⟨(run (misplaced ++ replaceValue true)).kernel.root, ?_, fun hkeys => ?_⟩
  · have hroot : (run (misplaced ++ replaceValue true)).published.head? =
        some (run (misplaced ++ replaceValue true)).kernel.root := rfl
    exact mem_of_head? hroot
  have heval : ((run (misplaced ++ replaceValue true)).kernel.root.relations.get?
      keyTwice.id).map (fun state => (state.metadata, state.rows.list)) =
        some (keyTwice, [[.bool true, .bool false], [.bool true, .bool true]]) := by decide +kernel
  obtain ⟨state, hstate, hrows⟩ := Option.map_eq_some_iff.mp heval
  obtain ⟨hmeta, hrows⟩ := Prod.mk.inj hrows
  have hsame := hkeys keyTwice.id state [0] hstate (by rw [hmeta]; rfl)
    [.bool true, .bool false] [.bool true, .bool true] (show _ ∈ state.rows.list by rw [hrows]; simp)
    (show _ ∈ state.rows.list by rw [hrows]; simp) rfl
  exact absurd hsame (by decide)

/-- Two transactions begin on the misplaced row; one retracts it and commits, the other writes its
key. -/
def concurrentRetract : List (KernelAction Entries) :=
  misplaced ++ [.begin 0, .begin 0, .retract 1 keyTwice.id [.bool true, .bool false],
    .commit 1 (.ok ()) (.ok ()), .assert 0 keyTwice.id [.bool true, .bool true]]

/-- The other one commits, although the row at its key has changed since it began. -/
theorem lost_update :
    ∃ tx ∈ (run concurrentRetract).transactions, ∃ state,
      ((run concurrentRetract).kernel.commit (.ok ()) (.ok ()) tx).2.toOption.isSome ∧
      tx.base.relations.get? keyTwice.id = some state ∧ state.metadata = keyTwice ∧
      ((tx.changes keyTwice.id).get? [.bool true, .bool true]).isSome ∧
      tx.base.Holds keyTwice.id [.bool true, .bool false] ∧
      ¬ (run concurrentRetract).kernel.root.Holds keyTwice.id [.bool true, .bool false] := by
  have heval : ∃ tx ∈ (run concurrentRetract).transactions[0]?,
      ∃ state ∈ tx.base.relations.get? keyTwice.id,
      ∃ root ∈ (run concurrentRetract).kernel.root.relations.get? keyTwice.id,
        ((run concurrentRetract).kernel.commit (.ok ()) (.ok ()) tx).2.toOption.isSome ∧
        ((tx.changes keyTwice.id).get? [.bool true, .bool true]).isSome ∧
        state.metadata = keyTwice ∧ state.rows.list = [[.bool true, .bool false]] ∧
        root.rows.list = [] := by decide +kernel
  obtain ⟨tx, htx, state, hstate, root, hget, hcommit, hchange, hmeta, hrows, hnil⟩ := heval
  refine ⟨tx, mem_of_getElem? htx, state, hcommit, hstate, hmeta, hchange, ?_, ?_⟩
  · exact (Snapshot.holds_iff hstate).mpr (show _ ∈ state.rows.list by rw [hrows]; simp)
  · rw [Snapshot.holds_iff hget]
    exact fun hmem => not_mem_nil (hnil ▸ show _ ∈ root.rows.list from hmem)

end KernelSystem

end Mica
