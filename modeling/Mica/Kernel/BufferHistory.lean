import Mica.Kernel.Lineage

/-!
# Kernel/BufferHistory — reverting and compacting buffers, along every run

A kernel remembers versions of its buffers as it publishes new ones, from commits and from staged
commits of its forks; a revert takes its text from there.

* `HistoryKernel.Runs.sound` — what every run keeps: the versions that are remembered were
  published, one after the other.
* `HistoryKernel.restructures_keep_promises` — what a revert and a compaction publish, and which
  transactions they stop.
-/

open SortedList List

namespace Mica

/-! ## What a transaction goes on to do -/

namespace RootTransaction

variable {M : Type → Type} [ByteMap M] {tx : RootTransaction M}

/-- Some steps of a transaction. -/
def actAll (floor : ℕ) (tx : RootTransaction M) (actions : List (TransactionAction M)) :
    RootTransaction M :=
  actions.foldl (act floor) tx

theorem sound_actAll (floor : ℕ) : ∀ (actions : List (TransactionAction M)) {tx : RootTransaction M},
    tx.buffers.Sound .empty → (tx.actAll floor actions).buffers.Sound .empty ∧
      (tx.actAll floor actions).buffers.base = tx.buffers.base
  | [], _, h => ⟨h, rfl⟩
  | action :: actions, tx, h => by
    obtain ⟨hstep, hbase⟩ := sound_act_alone floor h action
    obtain ⟨hrest, hbase'⟩ := sound_actAll floor actions hstep
    exact ⟨hrest, hbase'.trans hbase⟩

/-- The views of a transaction are edited from what it began at. -/
theorem tracesFrom_actAll (floor : ℕ) {id : Identity} {state : BufferState} :
    ∀ (actions : List (TransactionAction M)) {tx : RootTransaction M},
      tx.buffers.TracesFrom state.text id state →
      (tx.actAll floor actions).buffers.TracesFrom state.text id state
  | [], _, h => h
  | action :: actions, tx, h => by
    refine tracesFrom_actAll floor actions (tracesFrom_act h (fun supply => ?_) action)
    have hbase : tx.buffers.baseText id = state.text := by
      unfold BufferTransaction.baseText
      rw [h.base]
    rw [hbase]
    exact Supply.bound_le_above _ _

/-- A closed write stays as it is. -/
theorem closed_act (floor : ℕ) {id : Identity} {pending : PendingBuffer}
    (h : tx.buffers.Closed id pending) (action : TransactionAction M) :
    (tx.act floor action).buffers.Closed id pending := by
  have hbuffers : ∀ result : Except KernelError BufferTransaction,
      (∀ buffers, result = .ok buffers → buffers.Closed id pending ∧ buffers.base = tx.buffers.base) →
      (tx.withBuffers result).buffers.Closed id pending := by
    intro result hresult
    rcases tx.withBuffers_cases result with heq | ⟨buffers, hok, heq⟩
    · rwa [heq]
    · rw [heq]
      exact (hresult buffers hok).1
  cases action with
  | assert relation t => exact h
  | retract relation t => exact h
  | replaceFunctional relation t => exact h
  | scan derived relation bindings => exact h
  | createBuffer metadata => exact hbuffers _ fun _ => h.createBuffer
  | replaceBuffer other start stop text supply => exact hbuffers _ fun _ => h.replaceBuffer
  | deleteBuffer other => exact hbuffers _ fun _ => h.updateWrite
  | applyBuffer other expected edits supply reserved => exact hbuffers _ fun _ => h.applyBuffer
  | compactBuffer other supply => exact hbuffers _ fun _ => h.compactBuffer
  | revertBuffer other revision expected historical supply => exact hbuffers _ fun _ => h.revertBuffer

theorem closed_actAll (floor : ℕ) {id : Identity} {pending : PendingBuffer} :
    ∀ (actions : List (TransactionAction M)) {tx : RootTransaction M}, tx.buffers.Closed id pending →
      (tx.actAll floor actions).buffers.Closed id pending
  | [], _, h => h
  | action :: actions, _, h => closed_actAll floor actions (closed_act floor h action)

end RootTransaction

/-- A transaction commits, and a root is published. -/
def RootSystem.Commits {M : Type → Type} [ByteMap M] (s : RootSystem M) (tx : RootTransaction M)
    (next : Root M) : Prop :=
  ∃ settled supply persisted kernel commit,
    s.kernel.commit settled (Supply.atLeast supply s.floor) persisted tx = (kernel, .ok commit) ∧
      kernel.root = next

theorem RootSystem.Commits.materialize {M : Type → Type} [ByteMap M] {s : RootSystem M}
    {tx : RootTransaction M} {next : Root M} (h : s.Commits tx next) : ∃ supply changes,
      materializeBuffers s.root.facts.relationMetadata s.root.buffers supply tx.buffers =
        .ok (next.buffers, changes) := by
  obtain ⟨settled, supply, persisted, kernel, commit, hcommit, rfl⟩ := h
  rcases s.kernel.commit_cases settled (supply.atLeast s.floor) persisted tx with
    ⟨e, he⟩ | ⟨next, commit', hprepare, persistent, -, hresult⟩
  · cases (Prod.mk.inj (he.symm.trans hcommit)).2
  · obtain ⟨rfl, -⟩ := Prod.mk.inj (hresult.symm.trans hcommit)
    exact ⟨_, _, (RootTransaction.prepare_eq_ok hprepare).2⟩

/-! ## The kernel with its history -/

/-- A kernel with its open transactions, the versions that it remembers, and all buffers that it has
published, the last first. -/
structure HistoryKernel (M : Type → Type) [ByteMap M] where
  system : RootSystem M
  history : BufferHistory
  published : List BufferStates

namespace HistoryKernel

variable {M : Type → Type} [ByteMap M]

def buffers (k : HistoryKernel M) : BufferStates := k.system.root.buffers

/-- A kernel without relations. -/
def start : HistoryKernel M := ⟨.start, .empty, [.empty]⟩

/-- `try_publish_with_buffer_history`. -/
def publish (k : HistoryKernel M) (system : RootSystem M) (ids : List Identity) : HistoryKernel M :=
  ⟨system, .publish k.buffers system.root.buffers ids k.history, system.root.buffers :: k.published⟩

/-- A revert looks up its revision in the history of the kernel. -/
def resolve (k : HistoryKernel M) : TransactionAction M → TransactionAction M
  | .revertBuffer id revision expected _ supply =>
    .revertBuffer id revision expected (k.history.lookup id revision) supply
  | action => action

/-- **One step.** -/
def step (k : HistoryKernel M) : RootAction M → HistoryKernel M
  | .act i action => { k with system := k.system.step (.act i (k.resolve action)) }
  | .commit i settled supply persisted =>
    let system := k.system.step (.commit i settled supply persisted)
    match k.system.transactions[i]? with
    | none => k
    | some tx =>
      match (k.system.kernel.commit settled (supply.atLeast k.system.floor) persisted tx).2 with
      | .error _ => { k with system := system }
      | .ok _ => k.publish system (tx.buffers.bufferWrites.list.map Prod.fst)
  | action => { k with system := k.system.step action }

/-- A fork remembers nothing. -/
def fork (k : HistoryKernel M) : HistoryKernel M := ⟨k.system.fork, .empty, [k.buffers]⟩

/-- The staged commit of a root. -/
def commitStaged (k : HistoryKernel M) (expected : ℕ) (staged : Root M)
    (settled : Except KernelError Unit)
    (persisted : Except String Unit) : HistoryKernel M :=
  let system := k.system.commitStaged expected staged settled persisted
  match (k.system.kernel.commitStagedSnapshot expected staged settled persisted).2 with
  | .error _ => { k with system := system }
  | .ok _ => k.publish system (system.root.buffers.entries.list.map Prod.fst)

/-- The kernel, while the texts of its buffers stay in use. -/
def hold (k : HistoryKernel M) : HistoryKernel M := { k with system := k.system.hold }

/-- **Runs**: steps, and staged commits of what a fork of an earlier state has come to. -/
inductive Runs : HistoryKernel M → HistoryKernel M → Prop where
  | refl (k) : Runs k k
  | step {k l} (h : Runs k l) (action) : Runs k (l.step action)
  | staged {k l u f} (h : Runs k l) (hfork : Runs l.fork f) (hlater : Runs l u) (settled persisted) :
      Runs k (u.commitStaged l.system.root.facts.version f.system.root settled persisted)

theorem Runs.foldl {k l : HistoryKernel M} (h : Runs k l) : ∀ actions : List (RootAction M),
    Runs k (actions.foldl HistoryKernel.step l)
  | [] => h
  | action :: actions => (h.step action).foldl actions

/-! ## What every run keeps -/

variable {k l u f : HistoryKernel M}

/-- The action that the system below takes. -/
def resolved (k : HistoryKernel M) : RootAction M → RootAction M
  | .act i action => .act i (k.resolve action)
  | action => action

theorem system_step (k : HistoryKernel M) (action : RootAction M) :
    (k.step action).system = k.system.step (k.resolved action) := by
  cases action with
  | commit i settled supply persisted =>
    unfold HistoryKernel.step resolved
    dsimp only
    rcases htx : k.system.transactions[i]? with _ | tx
    · simp only [RootSystem.step, htx]
    dsimp only
    split
    · rfl
    · rfl
  | createRelation metadata persisted => rfl
  | installRule rule source settled persisted => rfl
  | disableRule ruleId settled persisted => rfl
  | begin => rfl
  | act i action => rfl

theorem system_commitStaged (k : HistoryKernel M) (expected : ℕ) (staged : Root M)
    (settled : Except KernelError Unit) (persisted : Except String Unit) :
    (k.commitStaged expected staged settled persisted).system =
      k.system.commitStaged expected staged settled persisted := by
  unfold HistoryKernel.commitStaged
  dsimp only
  split
  · rfl
  · rfl

/-- **A run with the history is a run of the system below.** -/
theorem Runs.system (h : Runs k l) : RootSystem.Runs k.system l.system := by
  induction h with
  | refl k => exact .refl _
  | step _ action ih =>
    rw [system_step]
    exact ih.step _
  | staged _ _ _ settled persisted ih ihfork ihlater =>
    rw [system_commitStaged]
    exact ih.staged ihfork ihlater settled persisted

/-- **What holds along a run**: everything that was published is there in its order, every transaction
began at a part of it, and what is remembered is one. -/
structure Sound (k : HistoryKernel M) : Prop where
  ordered : k.system.Ordered
  latest : ∃ older, k.published = k.buffers :: older
  chain : k.published.Pairwise fun newer older => older.Later newer
  bases : ∀ tx ∈ k.system.transactions, tx.buffers.base ∈ k.published
  recalls : k.history.Recalls k.published

theorem Sound.mem_buffers (h : k.Sound) : k.buffers ∈ k.published := by
  obtain ⟨older, hpublished⟩ := h.latest
  rw [hpublished]
  exact mem_cons_self

/-- What was published is an earlier state of what is there. -/
theorem Sound.later (h : k.Sound) {states : BufferStates} (hstates : states ∈ k.published) :
    states.Later k.buffers := by
  obtain ⟨older, hpublished⟩ := h.latest
  have hchain := h.chain
  rw [hpublished] at hstates hchain
  rcases mem_cons.mp hstates with rfl | hold
  · exact .refl _
  · exact (pairwise_cons.mp hchain).1 states hold

variable {id : Identity}

/-- **A revision has one text.** -/
theorem Sound.text_eq (h : k.Sound) {states states' : BufferStates} (hstates : states ∈ k.published)
    (hstates' : states' ∈ k.published) {a b : BufferState}
    (ha : states.get? id = some a) (hb : states'.get? id = some b)
    (hrevision : a.revision = b.revision) :
    a.text.toText = b.text.toText := by
  by_cases heq : states = states'
  · subst heq
    rw [Option.some.inj (ha.symm.trans hb)]
  have hsymm : Std.Symm fun x y : BufferStates => x.Later y ∨ y.Later x := ⟨fun _ _ => Or.symm⟩
  have hall : k.published.Pairwise fun x y => x.Later y ∨ y.Later x := h.chain.imp .inr
  rcases hall.forall hstates hstates' heq with hlater | hlater
  · exact ((hlater.get ha hb).follows.same hrevision.symm).1.symm
  · exact ((hlater.get hb ha).follows.same hrevision).1

theorem sound_start : (start : HistoryKernel M).Sound where
  ordered := RootSystem.ordered_start
  latest := ⟨[], rfl⟩
  chain := pairwise_singleton _ _
  bases := nofun
  recalls := BufferHistory.recalls_empty _

theorem Sound.fork (h : k.Sound) : k.fork.Sound where
  ordered := h.ordered.fork
  latest := ⟨[], rfl⟩
  chain := pairwise_singleton _ _
  bases := nofun
  recalls := BufferHistory.recalls_empty _

/-- A step that leaves the buffers as they are. -/
theorem Sound.setSystem (h : k.Sound) {system : RootSystem M} (hordered : system.Ordered)
    (hbuffers : system.root.buffers = k.buffers)
    (hbases : ∀ tx ∈ system.transactions, tx.buffers.base ∈ k.published) :
    Sound { k with system := system } := by
  obtain ⟨older, hpublished⟩ := h.latest
  exact ⟨hordered, ⟨older, hpublished.trans (by rw [← hbuffers]; rfl)⟩, h.chain, hbases, h.recalls⟩

/-- A step that publishes buffers. -/
theorem Sound.publish (h : k.Sound) {system : RootSystem M} {ids : List Identity}
    (hordered : system.Ordered) (hlater : k.buffers.Later system.root.buffers)
    (hbases : ∀ tx ∈ system.transactions, tx.buffers.base ∈ k.published) :
    (k.publish system ids).Sound where
  ordered := hordered
  latest := ⟨k.published, rfl⟩
  chain := pairwise_cons.mpr ⟨fun _ hold => (h.later hold).trans hlater, h.chain⟩
  bases tx htx := mem_cons_of_mem _ (hbases tx htx)
  recalls := .publish (mem_cons_of_mem _ h.mem_buffers) mem_cons_self
    (h.recalls.mono (subset_cons_self _ _))

theorem Sound.bases_steps (h : k.Sound) {system : RootSystem M}
    (hsteps : RootSystem.Steps k.system system) :
    ∀ tx ∈ system.transactions, tx.buffers.base ∈ k.published := by
  intro tx htx
  rcases hsteps.transactions tx htx with hold | ⟨rfl, -⟩ | ⟨old, hold, action, rfl⟩
  · exact h.bases tx hold
  · exact h.mem_buffers
  · rw [(RootTransaction.sound_act_alone k.system.floor (h.ordered.sound.alone hold) action).2]
    exact h.bases old hold

variable {settled : Except KernelError Unit} {supply : Supply} {persisted : Except String Unit}
    {tx : RootTransaction M}

/-- A commit that fails changes nothing. -/
theorem commit_fst_of_error {kernel : RelationKernel M} {e : KernelError}
    (h : (kernel.commit settled supply persisted tx).2 = .error e) :
    (kernel.commit settled supply persisted tx).1 = kernel := by
  rcases kernel.commit_cases settled supply persisted tx with
    ⟨e', he⟩ | ⟨next, commit, -, persistent, -, hresult⟩
  · rw [he]
  · rw [hresult] at h
    cases h

theorem commitStaged_fst_of_error {kernel : RelationKernel M} {expected : ℕ} {staged : Root M}
      {e : KernelError}
    (h : (kernel.commitStagedSnapshot expected staged settled persisted).2 = .error e) :
    (kernel.commitStagedSnapshot expected staged settled persisted).1 = kernel := by
  rcases kernel.commitStagedSnapshot_cases expected staged settled persisted with
    ⟨e', he⟩ | ⟨-, bufferChanges, changes, -, -, -, persistent, -, hresult⟩
  · rw [he]
  · rw [hresult] at h
    cases h

theorem Sound.step (h : k.Sound) (action : RootAction M) : (k.step action).Sound := by
  have hall : ∀ action : RootAction M, (∀ i settled supply persisted,
      action ≠ .commit i settled supply persisted) →
      Sound { k with system := k.system.step action } := fun action hcommit => by
    have hsteps := RootSystem.steps_step k.system action
    exact h.setSystem (h.ordered.steps hsteps (h.ordered.sound.progress_step action).sound)
      (RootSystem.buffers_step k.system hcommit) (h.bases_steps hsteps)
  cases action with
  | createRelation metadata persisted => exact hall _ nofun
  | installRule rule source settled persisted => exact hall _ nofun
  | disableRule ruleId settled persisted => exact hall _ nofun
  | begin => exact hall _ nofun
  | act i action => exact hall _ nofun
  | commit i settled supply persisted =>
    have hsteps := RootSystem.steps_step k.system (.commit i settled supply persisted)
    have hordered := h.ordered.steps hsteps
      (h.ordered.sound.progress_step (.commit i settled supply persisted)).sound
    unfold HistoryKernel.step
    dsimp only
    rcases htx : k.system.transactions[i]? with _ | tx
    · exact h
    dsimp only
    split
    · next e he =>
      refine h.setSystem hordered ?_ (h.bases_steps hsteps)
      simp only [RootSystem.step, htx, RootSystem.root]
      rw [commit_fst_of_error he]
      rfl
    · exact h.publish hordered (h.ordered.later_steps hsteps) (h.bases_steps hsteps)

theorem published_subset_publish (k : HistoryKernel M) (system : RootSystem M) (ids : List Identity) :
    k.published ⊆ (k.publish system ids).published := subset_cons_self _ _

theorem published_subset_step (k : HistoryKernel M) (action : RootAction M) :
    k.published ⊆ (k.step action).published := by
  cases action with
  | commit i settled supply persisted =>
    unfold HistoryKernel.step
    dsimp only
    split
    · exact List.Subset.refl _
    · split
      · exact List.Subset.refl _
      · exact k.published_subset_publish _ _
  | createRelation metadata persisted => exact List.Subset.refl _
  | installRule rule source settled persisted => exact List.Subset.refl _
  | disableRule ruleId settled persisted => exact List.Subset.refl _
  | begin => exact List.Subset.refl _
  | act i action => exact List.Subset.refl _

/-- What was published stays. -/
theorem Runs.published (h : Runs k l) : k.published ⊆ l.published := by
  induction h with
  | refl k => exact List.Subset.refl _
  | @step k l _ action ih => exact List.Subset.trans ih (l.published_subset_step action)
  | @staged k l u f _ _ _ settled persisted ih _ ihlater =>
    refine List.Subset.trans (List.Subset.trans ih ihlater) ?_
    unfold HistoryKernel.commitStaged
    dsimp only
    split
    · exact List.Subset.refl _
    · exact u.published_subset_publish _ _

/-- **Every run keeps the history right.** -/
theorem Runs.sound (h : Runs k l) : k.Sound → l.Sound := by
  induction h with
  | refl k => exact id
  | step _ action ih => exact fun hk => (ih hk).step action
  | @staged k l u f hrun hfork hlater settled persisted ih ihfork ihlater =>
    intro hk
    have hl := ih hk
    have hu := ihlater hl
    have hstaged := RootSystem.Runs.staged hrun.system hfork.system hlater.system settled persisted
    obtain ⟨hordered, -⟩ := hstaged.ordered hk.ordered
    obtain ⟨-, htf⟩ := hfork.system.ordered hl.fork.ordered
    have hnext := RootSystem.later_commitStaged hl.ordered.sound
      (hfork.system.progress hl.fork.ordered.sound)
        (hlater.system.progress hl.ordered.sound) htf settled
      persisted
    unfold HistoryKernel.commitStaged
    dsimp only
    split
    · next e he =>
      refine hu.setSystem hordered ?_ hu.bases
      rw [RootSystem.root_commitStaged, commitStaged_fst_of_error he]
      rfl
    · exact hu.publish hordered hnext hu.bases

/-! ## Reverts and compactions -/

variable {actions : List (TransactionAction M)}

/-- **A revert that commits** publishes the text of its revision, under the next one, unless there is
nothing to change. -/
theorem Sound.commits_revert (hk : k.Sound) (hu : Runs k u)
    (htx : tx ∈ k.system.transactions) {revision current floor : ℕ}
     {next : Root M} (hlt : revision < current)
    (hstatus : tx.buffers.revertStatus id revision current (k.history.lookup id revision) =
      .ok .staged)
    (hcommit : u.system.Commits ((tx.act floor (.revertBuffer id revision current
      (k.history.lookup id revision) supply)).actAll floor actions) next) :
    ∃ latest after, u.buffers.get? id = some latest ∧ latest.revision = current ∧
      next.buffers.get? id = some after ∧
      (∃ states ∈ u.published, ∃ old, states.get? id = some old ∧ old.revision = revision) ∧
      (∀ states ∈ u.published, ∀ old, states.get? id = some old → old.revision = revision →
        after.text.toText = old.text.toText) ∧
      ((after.revision = current + 1 ∧ after.structureEpoch = latest.structureEpoch + 1 ∧
          ¬ (latest.text.toText = [] ∧ after.text.toText = [])) ∨
        (after = latest ∧ latest.text.toText = [])) := by
  have hsound := hk.ordered.sound.alone htx
  have hlive := hu.sound hk
  obtain ⟨state, old, pending, hlookup, hstate, hcurrent, hwrite, hrevert⟩ :=
    BufferTransaction.revert_staged (supply.atLeast floor) hstatus hlt
  obtain ⟨holdRevision, oldStates, holdStates, hold⟩ := hk.recalls.lookup hlookup
  have hbegun := hsound.bufferWrite hwrite
  have hbaseText : tx.buffers.baseText id = state.text := by
    unfold BufferTransaction.baseText
    rw [hstate]
  -- the revert closes the write, so the commit finds it as it is
  obtain ⟨hsound₁, hbase₁⟩ := RootTransaction.sound_act_alone floor hsound
    (.revertBuffer id revision current (k.history.lookup id revision) supply)
  have hclosed : (tx.act floor (.revertBuffer id revision current (k.history.lookup id revision)
      supply)).buffers.Closed id { pending with
        text := Text.fromText old.text.toText ((supply.atLeast floor).above (tx.buffers.baseText id))
        reverted := true, «sealed» := true } := by
    unfold RootTransaction.act
    dsimp only
    rw [hrevert]
    exact ⟨SortedMap.get?_insert_self, rfl⟩
  obtain ⟨hsound₂, hbase₂⟩ := RootTransaction.sound_actAll floor actions hsound₁
  obtain ⟨hpending, -⟩ := RootTransaction.closed_actAll floor actions hclosed
  obtain ⟨supply', changes, hmaterialize⟩ := hcommit.materialize
  obtain ⟨latest, after, hlatest, hafter, hrevisions, hepochs, hcases⟩ :=
    materializeBuffers_revert hsound₂ hpending (hbegun.base_eq.trans hstate) rfl hbegun.compact
      hbegun.kept hmaterialize
  have hpublished := hu.published
  have hsame : state.text.toText = latest.text.toText :=
    hlive.text_eq (hpublished (hk.bases tx htx)) hlive.mem_buffers hstate hlatest hrevisions.symm
  have hone : ∀ states ∈ u.published, ∀ old', states.get? id = some old' → old'.revision = revision →
      old.text.toText = old'.text.toText := fun states hstates old' hold' hrevision =>
    hlive.text_eq (hpublished holdStates) hstates hold hold' (holdRevision.trans hrevision.symm)
  refine ⟨latest, after, hlatest, hrevisions.trans hcurrent, hafter,
    ⟨oldStates, hpublished holdStates, old, hold, holdRevision⟩, ?_⟩
  rcases hcases with ⟨hempty, rfl⟩ | ⟨htext, hrevision, -, hepoch, hchanged⟩
  · rw [hbaseText] at hempty
    obtain ⟨hold', hstate'⟩ := hempty.fromText_eq_nil (Supply.bound_le_above _ _)
    refine ⟨fun states hstates old' hget hrevision => ?_, .inr ⟨rfl, hsame ▸ hstate'⟩⟩
    rw [← hone states hstates old' hget hrevision, hold', ← hsame, hstate']
  have htext' : after.text.toText = old.text.toText := by
    rw [htext]
    exact Text.toText_fromText _ _
  refine ⟨fun states hstates old' hget hrevision' => ?_, .inl ⟨?_, hepoch, ?_⟩⟩
  · rw [htext', hone states hstates old' hget hrevision']
  · rw [hrevision, hrevisions, hcurrent]
  · rwa [← hsame, htext]

/-- **A compaction that commits** keeps the text and the revision. -/
theorem Sound.commits_compact (hk : k.Sound) (hu : Runs k u)
    (htx : tx ∈ k.system.transactions) {floor : ℕ} {buffers : BufferTransaction} {next : Root M}
    {state : BufferState} (hstate : tx.buffers.base.get? id = some state)
    (hcompact : tx.buffers.compactBuffer id (supply.atLeast floor) = .ok buffers)
    (hcommit : u.system.Commits ((tx.act floor (.compactBuffer id supply)).actAll floor actions)
      next) :
    ∃ latest after, u.buffers.get? id = some latest ∧ next.buffers.get? id = some after ∧
      after.text.toText = latest.text.toText ∧ after.revision = latest.revision ∧
      after.structureEpoch = latest.structureEpoch + 1 := by
  have hsound := hk.ordered.sound.alone htx
  have hlive := hu.sound hk
  obtain ⟨-, pending, hclosed, hcompacts, hkept, hbase, htext⟩ :=
    BufferTransaction.compact_closed hsound hstate hcompact
  obtain ⟨hsound₁, -⟩ := RootTransaction.sound_act_alone floor hsound (.compactBuffer id supply)
  have hclosed₁ : (tx.act floor (.compactBuffer id supply)).buffers.Closed id pending := by
    unfold RootTransaction.act
    dsimp only
    rwa [hcompact]
  obtain ⟨hsound₂, -⟩ := RootTransaction.sound_actAll floor actions hsound₁
  obtain ⟨hpending, -⟩ := RootTransaction.closed_actAll floor actions hclosed₁
  obtain ⟨supply', changes, hmaterialize⟩ := hcommit.materialize
  obtain ⟨latest, after, hlatest, hafter, hrevisions, -, htext', hrevision, -, hepoch⟩ :=
    materializeBuffers_compact hsound₂ hpending hbase hcompacts hkept hmaterialize
  refine ⟨latest, after, hlatest, hafter, ?_, hrevision, hepoch⟩
  rw [htext', htext]
  exact hlive.text_eq (hu.published (hk.bases tx htx)) hlive.mem_buffers hstate hlatest hrevisions.symm

/-- **A transaction that was open before a revert or a compaction** cannot commit a write to the
buffer. -/
theorem Sound.not_commits (hk : k.Sound) {t t' : HistoryKernel M} (ht : Runs k t) (ht' : Runs t t')
    (hu : Runs t' u) (htx : tx ∈ k.system.transactions) {floor : ℕ} {before after : BufferState}
    (hbefore : t.buffers.get? id = some before) (hafter : t'.buffers.get? id = some after)
    (hepoch : before.structureEpoch < after.structureEpoch)
    (hwrites : ((tx.actAll floor actions).buffers.bufferWrites.get? id).isSome = true)
    (next : Root M) :
    ¬ u.system.Commits (tx.actAll floor actions) next := by
  intro hcommit
  obtain ⟨pending, hpending⟩ := Option.isSome_iff_exists.mp hwrites
  obtain ⟨hsound, hbase⟩ := RootTransaction.sound_actAll floor actions (hk.ordered.sound.alone htx)
  have hlive := ht.sound hk
  obtain ⟨hordered, -⟩ := ht'.system.ordered hlive.ordered
  obtain ⟨latest, hlatest, hgrown⟩ := (hu.system.ordered hordered).2 id after hafter
  obtain ⟨supply, changes, hmaterialize⟩ := hcommit.materialize
  rcases materializeBuffers_guard hsound hpending hmaterialize with
    ⟨-, hnone⟩ | ⟨old, latest', hold, hlatest', hsame, -⟩
  · cases hnone.symm.trans hlatest
  · obtain rfl := Option.some.inj (hlatest.symm.trans hlatest')
    have hold' := (hsound id pending hpending).base_eq.symm.trans hold
    rw [hbase] at hold'
    have hle := ((hlive.later (ht.published (hk.bases tx htx))).get hold' hbefore).epoch
    have hle' := hgrown.epoch
    omega

/-- **A transaction that begins after a revert or a compaction** can be rebased, until the next one. -/
theorem Sound.rebases (hk : k.Sound) (hu : Runs k.hold u)
     {base latest : BufferState} {pending : PendingBuffer} (hbase : k.buffers.get? id = some base)
    (hpending : (((RootTransaction.new k.system.root).actAll k.hold.system.floor
      actions).buffers.bufferWrites.get? id) = some pending) (hplain : pending.Plain)
    (hlatest : u.buffers.get? id = some latest)
    (hepoch : latest.structureEpoch = base.structureEpoch) (hdeleted : latest.deleted = false)
    {s : Materializing} (hs : s.states.get? id = u.buffers.get? id) {relations : List RelationMetadata}
     {e : KernelError} (h : s.result relations supply id pending = .error e) :
    e = .buffer id (.delta .budgetExceeded) ∨
      (e = .buffer id (.conflict base.revision latest.revision) ∧ latest.revision ≠ base.revision ∧
        (pending.metadata.conflict = .reject ∨ pending.metadata.conflict = .span ∧
          Materializing.Conflicting base.text pending.text latest.text)) := by
  have hnew : (RootTransaction.new k.system.root).buffers.TracesFrom base.text id base :=
    ⟨hbase, .self _, BufferTransaction.traces_new _ _ _⟩
  have hview := (RootTransaction.tracesFrom_actAll k.hold.system.floor actions hnew).traces pending
    hpending hplain
  have hempty : (RootTransaction.new k.system.root).buffers.Sound .empty :=
    BufferTransaction.sound_new _ _
  obtain ⟨hsound, hsame⟩ := RootTransaction.sound_actAll k.hold.system.floor actions hempty
  have hwritten := hsound id pending hpending
  have hpbase : pending.base = some base := by
    rwa [hwritten.base_eq, hsame]
  have hheld := hu.system.held hk.ordered.held_hold
  unfold Materializing.result at h
  rw [hpbase] at h
  refine Materializing.edited_error hplain.kept hplain.compact hplain.reverted
    (hs.trans hlatest) hepoch
    hdeleted hview (fun hpolicy => ?_) h
  rw [hwritten.metadata base hpbase] at hpolicy
  exact hheld.descends id base latest hbase hlatest hpolicy hepoch hdeleted

/-- **What reverting and compacting promise, and keep.**  Whatever the transactions do in between:

* A revert that is staged and commits publishes the text that was published as its revision, under the
  next revision and the next epoch, unless both texts are empty; then it publishes nothing.
* A compaction that commits keeps the text and the revision, and moves the epoch on.
* Once the epoch has moved on, no transaction that was open before commits a write to the buffer.
* A transaction that begins later is stopped by nothing but the budget, a conflict with an edit
  since or the policy of the buffer, as long as the epoch does not move on again. -/
theorem restructures_keep_promises (hk : Runs start k) :
    (∀ u, Runs k u → ∀ tx ∈ k.system.transactions, ∀ id revision current floor supply actions next,
      revision < current →
      tx.buffers.revertStatus id revision current (k.history.lookup id revision) = .ok .staged →
      u.system.Commits ((tx.act floor (.revertBuffer id revision current
        (k.history.lookup id revision) supply)).actAll floor actions) next →
      ∃ latest after, u.buffers.get? id = some latest ∧ latest.revision = current ∧
        next.buffers.get? id = some after ∧
        (∃ states ∈ u.published, ∃ old, states.get? id = some old ∧ old.revision = revision) ∧
        (∀ states ∈ u.published, ∀ old, states.get? id = some old → old.revision = revision →
          after.text.toText = old.text.toText) ∧
        ((after.revision = current + 1 ∧ after.structureEpoch = latest.structureEpoch + 1 ∧
            ¬ (latest.text.toText = [] ∧ after.text.toText = [])) ∨
          (after = latest ∧ latest.text.toText = []))) ∧
    (∀ u, Runs k u → ∀ tx ∈ k.system.transactions, ∀ id floor supply buffers actions next state,
      tx.buffers.base.get? id = some state →
      tx.buffers.compactBuffer id (supply.atLeast floor) = .ok buffers →
      u.system.Commits ((tx.act floor (.compactBuffer id supply)).actAll floor actions) next →
      ∃ latest after, u.buffers.get? id = some latest ∧ next.buffers.get? id = some after ∧
        after.text.toText = latest.text.toText ∧ after.revision = latest.revision ∧
        after.structureEpoch = latest.structureEpoch + 1) ∧
    (∀ t t' u, Runs k t → Runs t t' → Runs t' u → ∀ tx ∈ k.system.transactions,
      ∀ id floor actions before after,
      t.buffers.get? id = some before → t'.buffers.get? id = some after →
      before.structureEpoch < after.structureEpoch →
      ((tx.actAll floor actions).buffers.bufferWrites.get? id).isSome = true →
      ∀ next, ¬ u.system.Commits (tx.actAll floor actions) next) ∧
    (∀ u, Runs k.hold u → ∀ id actions base latest pending, k.buffers.get? id = some base →
      (((RootTransaction.new k.system.root).actAll k.hold.system.floor
        actions).buffers.bufferWrites.get? id
        = some pending) → pending.Plain → u.buffers.get? id = some latest →
      latest.structureEpoch = base.structureEpoch → latest.deleted = false →
      ∀ (s : Materializing) relations supply e, s.states.get? id = u.buffers.get? id →
      s.result relations supply id pending = .error e →
      e = .buffer id (.delta .budgetExceeded) ∨
        (e = .buffer id (.conflict base.revision latest.revision) ∧ latest.revision ≠ base.revision ∧
          (pending.metadata.conflict = .reject ∨ pending.metadata.conflict = .span ∧
            Materializing.Conflicting base.text pending.text latest.text))) := by
  have hsound := hk.sound sound_start
  refine ⟨?_, ?_, ?_, ?_⟩
  · intro u hu tx htx id revision current floor supply actions next hlt hstatus hcommit
    exact hsound.commits_revert hu htx hlt hstatus hcommit
  · intro u hu tx htx id floor supply buffers actions next state hstate hcompact hcommit
    exact hsound.commits_compact hu htx hstate hcompact hcommit
  · intro t t' u ht ht' hu tx htx id floor actions before after hbefore hafter hepoch hwrites next
    exact hsound.not_commits ht ht' hu htx hbefore hafter hepoch hwrites next
  · intro u hu id actions base latest pending hbase hpending hplain hlatest hepoch hdeleted s relations
      supply e hs h
    exact hsound.rebases hu hbase hpending hplain hlatest hepoch hdeleted hs h

/-! ### Two runs -/

theorem commits_of_isSome {s : RootSystem M}
    (h : (s.kernel.commit settled (supply.atLeast s.floor) persisted tx).2.toOption.isSome = true) :
    s.Commits tx (s.kernel.commit settled (supply.atLeast s.floor) persisted tx).1.root := by
  cases hresult : s.kernel.commit settled (supply.atLeast s.floor) persisted tx with
  | mk kernel result =>
    cases result with
    | error e =>
      rw [hresult] at h
      cases h
    | ok commit => exact ⟨settled, supply, persisted, kernel, commit, hresult, rfl⟩

/-- A buffer. -/
def noteId : Identity := .ofByte 2

/-- A buffer that is created empty. -/
def creating : List (RootAction Entries) :=
  [.begin, .act 0 (.createBuffer ⟨noteId, ⟨1⟩, .durable, .span⟩), .commit 0 (.ok ()) ⟨1, 1⟩ (.ok ())]

/-- A commit of one edit. -/
def editing (start stop : ℕ) (text : List Char) (chunk : ℕ) : List (RootAction Entries) :=
  [.begin, .act 0 (.replaceBuffer noteId start stop text ⟨chunk, chunk⟩),
    .commit 0 (.ok ()) ⟨chunk + 1, chunk + 1⟩ (.ok ())]

/-- The revisions of two texts. -/
def revised : HistoryKernel Entries :=
  (creating ++ editing 0 0 ['a'] 10 ++ editing 0 1 ['b'] 20).foldl step start

/-- A text that was written and removed. -/
def emptied : HistoryKernel Entries :=
  (creating ++ editing 0 0 ['a'] 10 ++ editing 0 1 [] 20).foldl step start

/-- A transaction that reverts a buffer. -/
def reverting (k : HistoryKernel Entries) (revision current : ℕ) : RootTransaction Entries :=
  (RootTransaction.new k.system.root).act 0
    (.revertBuffer noteId revision current (k.history.lookup noteId revision) ⟨30, 30⟩)

/-- What its commit publishes. -/
def reverted (k : HistoryKernel Entries) (revision current : ℕ) : Root Entries :=
  (k.system.kernel.commit (.ok ()) ((⟨40, 40⟩ : Supply).atLeast k.system.floor) (.ok ())
    (reverting k revision current)).1.root

/-- The second text is reverted to the first. -/
theorem restructures_keep_promises_revised :
    ∃ after, (reverted revised 1 2).buffers.get? noteId = some after ∧ after.revision = 3 ∧
      after.structureEpoch = 1 ∧ after.text.toText = ['a'] := by
  have hrun : Runs start (revised.step .begin) := ((Runs.refl _).foldl _).step _
  have htx : RootTransaction.new revised.system.root ∈ (revised.step .begin).system.transactions :=
    mem_append_right _ mem_cons_self
  have hstatus : (RootTransaction.new revised.system.root).buffers.revertStatus noteId 1 2
      (revised.history.lookup noteId 1) = .ok .staged := by
    decide +kernel
  have hcommits : (revised.step .begin).system.Commits (reverting revised 1 2)
    (reverted revised 1 2) :=
    commits_of_isSome (by decide +kernel)
  have hlatest : (((revised.step .begin).buffers.get? noteId).map fun state =>
      (state.text.toText, state.structureEpoch)) = some (['b'], 0) := by
    decide +kernel
  have hpublished : ((revised.step .begin).published.any fun states =>
    (states.get? noteId).any fun state =>
      state.revision = 1 && state.text.toText = ['a']) = true := by
    decide +kernel
  obtain ⟨states, hstates, hany⟩ := any_eq_true.mp hpublished
  obtain ⟨old, hold, hfirst⟩ := (Option.any_eq_true _ _).mp hany
  rw [Bool.and_eq_true, decide_eq_true_eq, decide_eq_true_eq] at hfirst
  obtain ⟨latest, after, hget, -, hafter, -, htext, hcases⟩ := (restructures_keep_promises hrun).1 _
    (.refl _) _ htx noteId 1 2 0 ⟨30, 30⟩ [] _ (by decide) hstatus hcommits
  rw [hget] at hlatest
  obtain ⟨hb, hepoch⟩ := Prod.mk.inj (Option.some.inj hlatest)
  rcases hcases with ⟨hrevision, hnext, -⟩ | ⟨-, hempty⟩
  · exact ⟨after, hafter, hrevision, by rw [hnext, hepoch],
      (htext states hstates old hold hfirst.1).trans hfirst.2⟩
  · cases hb.symm.trans hempty

/-- **A revert between empty texts** is staged and commits, and the revision is the same. -/
theorem emptied_stays :
    Runs start (emptied.step .begin) ∧
      RootTransaction.new emptied.system.root ∈ (emptied.step .begin).system.transactions ∧
      (RootTransaction.new emptied.system.root).buffers.revertStatus noteId 0 2
        ((emptied.step .begin).history.lookup noteId 0) = .ok .staged ∧
      (emptied.step .begin).system.Commits (reverting emptied 0 2) (reverted emptied 0 2) ∧
      ∃ after, (reverted emptied 0 2).buffers.get? noteId = some after ∧ after.revision ≠ 2 + 1 := by
  have hafter : (((reverted emptied 0 2).buffers.get? noteId).any fun state =>
      state.revision ≠ 2 + 1) = true := by
    decide +kernel
  obtain ⟨after, hget, hrevision⟩ := (Option.any_eq_true _ _).mp hafter
  exact ⟨((Runs.refl _).foldl _).step _, mem_append_right _ mem_cons_self, by decide +kernel,
    commits_of_isSome (by decide +kernel), after, hget, of_decide_eq_true hrevision⟩

end HistoryKernel

end Mica
