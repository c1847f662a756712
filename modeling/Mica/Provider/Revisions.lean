import Mica.Provider.BufferCheckpoints

/-!
# Provider/Revisions — a revision names one text for ever

A kernel runs, ends, and is loaded again, from the log or from the materialized state; then the next
one runs on.  Over all of that the published states of a buffer follow each other: a revision never
comes back with another text, and the id and the name of a buffer are never given away.

* `Serves` — runs and restarts, in any order.
* `buffer_revisions_hold` — what holds between any two published states.
-/

open SortedList List SortedMap
open Except (ok.inj)

namespace Mica

/-! ## The materialized state -/

/-- What can be wrong when a commit is written. -/
inductive StoreError where
  | buffers (error : CheckpointError)
  | missingRule (rule : Identity)

/-- The keyspaces of the catalogue, the buffers and the version.  Those of the facts are left open:
what a process reads from them depends on its symbols. -/
structure Keyspaces where
  relations : SortedMap Identity RelationMetadata
  rules : SortedMap Identity RuleDefinition
  buffers : BufferSpace
  version : Option ℕ

/-- `PersistedKernelState`. -/
structure PersistedKernelState where
  version : ℕ
  relations : List RelationMetadata
  rules : List RuleDefinition
  facts : List Fact
  buffers : List PersistedBufferState

namespace Keyspaces

def empty : Keyspaces := ⟨SortedMap.empty, SortedMap.empty, BufferSpace.empty, none⟩

/-- A catalogue change of `write_commit`.  A rule is read as it was before the batch. -/
def writeCatalog (space : Keyspaces) : Keyspaces → List CatalogChange → Except StoreError Keyspaces
  | batch, [] => .ok batch
  | batch, .relationCreated metadata :: changes =>
    writeCatalog space { batch with relations := batch.relations.insert metadata.id metadata } changes
  | batch, .ruleInstalled rule :: changes =>
    writeCatalog space { batch with rules := batch.rules.insert rule.id rule } changes
  | batch, .ruleDisabled ruleId :: changes =>
    match space.rules.get? ruleId with
    | none => .error (.missingRule ruleId)
    | some rule =>
      writeCatalog space
        { batch with rules := batch.rules.insert ruleId { rule with active := false } }
        changes

variable (encode : BufferChange → Except String ℕ) (supply : Supply)

/-- `write_commit`. -/
def writeCommit (space : Keyspaces) (commit : RootCommit) : Except StoreError Keyspaces :=
  match space.buffers.writeChanges encode supply commit.bufferChanges with
  | .error e => .error (.buffers e)
  | .ok buffers =>
    match writeCatalog space { space with buffers := buffers } commit.facts.catalogChanges with
    | .error e => .error e
    | .ok space => .ok { space with version := some commit.facts.version }

/-- The keyspaces after the commits of a log. -/
def writeLog : Keyspaces → List RootCommit → Except StoreError Keyspaces
  | space, [] => .ok space
  | space, commit :: log =>
    match writeCommit encode supply space commit with
    | .error e => .error e
    | .ok space => writeLog space log

/-- `load_state`.  A store without a version has no commits. -/
def loadState (space : Keyspaces) (facts : List Fact) : Except StoreError PersistedKernelState :=
  match space.buffers.loadBuffers supply with
  | .error e => .error (.buffers e)
  | .ok buffers => .ok {
      version := space.version.getD 0
      relations := space.relations.list.map Prod.snd
      rules := space.rules.list.map Prod.snd
      facts := facts
      buffers := buffers }

end Keyspaces

section Load

variable {M : Type → Type} [ByteMap M]

namespace RelationKernel

/-- The relations of `load_from_state`. -/
def loadRelations : SortedMap RelationId (RelationState M) → List RelationMetadata →
    Except KernelError (SortedMap RelationId (RelationState M))
  | states, [] => .ok states
  | states, metadata :: rest =>
    match (RelationState.empty metadata : Except KernelError (RelationState M)) with
    | .error e => .error e
    | .ok state => loadRelations (states.insert metadata.id state) rest

/-- The rules of `load_from_state`. -/
def loadRules (states : SortedMap RelationId (RelationState M)) (rules : List RuleDefinition) :
    Except KernelError Unit :=
  match rules.forM fun rule => validateRuleAgainstRelations states rule.rule with
  | .error e => .error e
  | .ok () => validateActive rules

/-- The facts of `load_from_state`. -/
def loadFacts : SortedMap RelationId (RelationState M) → List Fact →
    Except KernelError (SortedMap RelationId (RelationState M))
  | states, [] => .ok states
  | states, (relation, tuple) :: rest =>
    match states.get? relation with
    | none => .error (.unknownRelation relation)
    | some state =>
      if state.metadata.durability = .volatile then loadFacts states rest
      else if state.metadata.arity ≠ tuple.length then
        .error (.arityMismatch relation state.metadata.arity tuple.length)
      else loadFacts (states.insert relation (state.insert tuple).1) rest

/-- `load_from_state`. -/
def loadFromState (supply : Supply) (state : PersistedKernelState) : Except KernelError (Root M) :=
  match loadRelations SortedMap.empty state.relations with
  | .error e => .error e
  | .ok relations =>
    match loadRules relations state.rules with
    | .error e => .error e
    | .ok () =>
      match loadFacts relations state.facts with
      | .error e => .error e
      | .ok relations =>
        match BufferStates.restore supply state.buffers with
        | .error e => .error e
        | .ok buffers =>
          match buffers.validateCatalog relations with
          | .error e => .error e
          | .ok () => .ok ⟨⟨state.version, relations, state.rules, []⟩, buffers⟩

end RelationKernel

end Load

/-! ### What the keyspaces hold -/

namespace Keyspaces

variable {encode : BufferChange → Except String ℕ} {supply : Supply}

/-- Every rule is under its own id. -/
def Keyed (space : Keyspaces) : Prop := ∀ id rule, space.rules.get? id = some rule → rule.id = id

theorem keyed_empty : empty.Keyed := fun _ _ h => nomatch get?_empty.symm.trans h

theorem Keyed.insert {space : Keyspaces} (h : space.Keyed) {id : Identity} (rule : RuleDefinition)
    (hrule : rule.id = id) : Keyed { space with rules := space.rules.insert id rule } := by
  intro id' rule' hget
  dsimp only at hget
  rw [get?_insert] at hget
  split at hget
  · next heq => rw [heq, ← Option.some.inj hget, hrule]
  · exact h id' rule' hget

/-- **What the catalogue changes write.** -/
theorem writeCatalog_spec {space : Keyspaces} (hspace : space.Keyed) :
    ∀ (changes : List CatalogChange) (batch : Keyspaces) {batch' : Keyspaces}, batch.Keyed →
      (∀ id, (space.rules.get? id).isSome → (batch.rules.get? id).isSome) →
      writeCatalog space batch changes = .ok batch' →
      batch'.Keyed ∧ batch'.buffers = batch.buffers ∧
        ∀ id, (batch'.rules.get? id).isSome ↔ (batch.rules.get? id).isSome ∨ id ∈ installedIds changes
  | [], batch, batch', hbatch, _, h => by
    obtain rfl := ok.inj h
    exact ⟨hbatch, rfl, fun id => by simp [installedIds]⟩
  | .relationCreated metadata :: changes, batch, batch', hbatch, hkept, h => by
    simp only [writeCatalog] at h
    exact writeCatalog_spec hspace changes
      { batch with relations := batch.relations.insert metadata.id metadata } hbatch hkept h
  | .ruleInstalled rule :: changes, batch, batch', hbatch, hkept, h => by
    simp only [writeCatalog] at h
    have hget : ∀ id, ((batch.rules.insert rule.id rule).get? id).isSome ↔
        id = rule.id ∨ (batch.rules.get? id).isSome := by
      intro id
      rw [get?_insert]
      split
      · next heq => simp [heq]
      · next hne => simp [hne]
    obtain ⟨hkeyed, hbuffers, hids⟩ := writeCatalog_spec hspace changes _ (hbatch.insert rule rfl)
      (fun id hid => (hget id).mpr (Or.inr (hkept id hid))) h
    refine ⟨hkeyed, hbuffers, fun id => ?_⟩
    rw [hids, hget]
    have hcons : installedIds (.ruleInstalled rule :: changes) = rule.id :: installedIds changes := rfl
    rw [hcons, mem_cons]
    tauto
  | .ruleDisabled ruleId :: changes, batch, batch', hbatch, hkept, h => by
    simp only [writeCatalog] at h
    split at h
    · cases h
    rename_i rule hrule
    have hsome := hkept ruleId (by rw [hrule]; rfl)
    have hget : ∀ id, ((batch.rules.insert ruleId { rule with active := false }).get? id).isSome ↔
        (batch.rules.get? id).isSome := by
      intro id
      rw [get?_insert]
      split
      · next heq => simp [heq, hsome]
      · exact Iff.rfl
    obtain ⟨hkeyed, hbuffers, hids⟩ := writeCatalog_spec hspace changes _
      (hbatch.insert { rule with active := false } (hspace ruleId rule hrule))
      (fun id hid => (hget id).mpr (hkept id hid)) h
    refine ⟨hkeyed, hbuffers, fun id => ?_⟩
    rw [hids, hget]
    rfl

/-- **What the keyspaces hold of a log.** -/
theorem writeLog_spec : ∀ {log : List RootCommit} {space space' : Keyspaces}, space.Keyed →
    space.writeLog encode supply log = .ok space' →
      space'.Keyed ∧ space.buffers.writeLog encode supply log = .ok space'.buffers ∧
      (∀ id, (space'.rules.get? id).isSome ↔ (space.rules.get? id).isSome ∨
        id ∈ log.flatMap fun commit => installedIds commit.facts.catalogChanges) ∧
      space'.version = (log.getLast?.map fun commit => commit.facts.version).or space.version
  | [], space, space', hspace, h => by
    obtain rfl := ok.inj h
    exact ⟨hspace, rfl, fun id => by simp, rfl⟩
  | commit :: log, space, space', hspace, h => by
    unfold writeLog at h
    split at h
    · cases h
    rename_i space₁ hcommit
    unfold writeCommit at hcommit
    split at hcommit
    · cases hcommit
    rename_i buffers hbuffers
    split at hcommit
    · cases hcommit
    rename_i space₂ hcatalog
    obtain rfl := ok.inj hcommit
    obtain ⟨hkeyed, hsame, hids⟩ :=
      writeCatalog_spec hspace _ { space with buffers := buffers } hspace (fun _ hid => hid)
        hcatalog
    have hkeyed₁ : Keyed { space₂ with version := some commit.facts.version } := hkeyed
    obtain ⟨hkeyed', hlog, hids', hversion⟩ := writeLog_spec hkeyed₁ h
    refine ⟨hkeyed', ?_, fun id => ?_, ?_⟩
    · unfold BufferSpace.writeLog
      rw [hbuffers]
      dsimp only at hlog hsame
      rwa [hsame] at hlog
    · rw [hids', flatMap_cons, mem_append]
      dsimp only
      rw [hids id, or_assoc]
    · rw [hversion]
      cases log with
      | nil => rfl
      | cons next rest =>
        rw [getLast?_cons_cons]
        rw [getLast?_eq_some_getLast (cons_ne_nil next rest)]
        rfl

end Keyspaces

/-! ### What is loaded -/

namespace RelationKernel

variable {M : Type → Type} [ByteMap M] {kernel : RelationKernel M} {root : Root M} {supply : Supply}

/-- Relation states of checked facts, each under its own id. -/
def RelationsStored (states : SortedMap RelationId (RelationState M)) : Prop :=
  ∀ relation state, states.get? relation = some state → state.Stored ∧ state.metadata.id = relation

theorem relationsStored_empty : RelationsStored (SortedMap.empty : SortedMap _ (RelationState M)) :=
  fun _ _ h => nomatch get?_empty.symm.trans h

theorem RelationsStored.insert {states : SortedMap RelationId (RelationState M)}
    (h : RelationsStored states) {relation : RelationId} {state : RelationState M}
    (hstate : state.Stored ∧ state.metadata.id = relation) :
    RelationsStored (states.insert relation state) := by
  intro relation' state' hget
  rw [get?_insert] at hget
  split at hget
  · next heq =>
    rwa [heq, ← Option.some.inj hget]
  · exact h relation' state' hget

theorem stored_loadRelations : ∀ {metadata : List RelationMetadata}
    {states states' : SortedMap RelationId (RelationState M)}, RelationsStored states →
      loadRelations states metadata = .ok states' → RelationsStored states'
  | [], states, states', hstates, h => ok.inj h ▸ hstates
  | m :: rest, states, states', hstates, h => by
    unfold loadRelations at h
    split at h
    · cases h
    rename_i state hstate
    refine stored_loadRelations (hstates.insert ⟨.empty hstate, ?_⟩) h
    rw [(RelationState.empty_spec hstate).1]

theorem stored_loadFacts : ∀ {facts : List Fact}
    {states states' : SortedMap RelationId (RelationState M)},
    (∀ fact ∈ facts, ∀ v ∈ fact.2, v.isPersistable = true) → RelationsStored states →
      loadFacts states facts = .ok states' → RelationsStored states'
  | [], states, states', _, hstates, h => ok.inj h ▸ hstates
  | (relation, tuple) :: rest, states, states', hfacts, hstates, h => by
    obtain ⟨hfirst, hrest⟩ := forall_mem_cons.mp hfacts
    unfold loadFacts at h
    split at h
    · cases h
    rename_i state hstate
    obtain ⟨hstored, hid⟩ := hstates relation state hstate
    split at h
    · exact stored_loadFacts hrest hstates h
    split at h
    · cases h
    rename_i harity
    refine stored_loadFacts hrest (hstates.insert ⟨.insert hstored ?_, ?_⟩) h
    · exact RelationMetadata.validateTuple_eq_ok.mpr ⟨(not_not.mp harity).symm, hfirst⟩
    · rw [RelationState.insert_metadata, hid]

theorem loadFromState_eq_ok {state : PersistedKernelState}
    (h : loadFromState supply state = .ok root)
    (hfacts : ∀ fact ∈ state.facts, ∀ v ∈ fact.2, v.isPersistable = true) :
    root.facts.version = state.version ∧ root.facts.rules = state.rules ∧ root.facts.commits = [] ∧
      root.facts.Stored ∧ BufferStates.restore supply state.buffers = .ok root.buffers ∧
        root.Apart := by
  unfold loadFromState at h
  split at h
  · cases h
  rename_i relations hrelations
  split at h
  · cases h
  split at h
  · cases h
  rename_i relations' hloaded
  split at h
  · cases h
  rename_i buffers hbuffers
  split at h
  · cases h
  rename_i hcatalog
  obtain rfl := ok.inj h
  refine ⟨rfl, rfl, rfl, ?_, hbuffers, BufferStates.validateCatalog_eq_ok hcatalog⟩
  exact stored_loadFacts hfacts (stored_loadRelations relationsStored_empty hrelations) hloaded

/-- **What a root that is loaded from the materialized state is.** -/
theorem Logged.loadFromState (h : kernel.Logged)
    (hnodup : (kernel.root.facts.rules.map RuleDefinition.id).Nodup)
    {encode : BufferChange → Except String ℕ} {supply₁ supply₂ : Supply} {space : Keyspaces}
    {facts : List Fact} {state : PersistedKernelState}
    (hwrite : Keyspaces.empty.writeLog encode supply₁ kernel.log = .ok space)
    (hstate : space.loadState supply₂ facts = .ok state)
    (hfacts : ∀ fact ∈ facts, ∀ v ∈ fact.2, v.isPersistable = true)
    (hload : loadFromState supply state = .ok root) : Restarted kernel root := by
  obtain ⟨hkeyed, hbuffers, hids, hversion⟩ := Keyspaces.writeLog_spec Keyspaces.keyed_empty hwrite
  obtain ⟨replayed, hreplayed, -⟩ := h.buffers supply₁
  have hholds : BufferSpace.empty.Holds BufferStates.empty := fun _ => rfl
  have hloaded := (hholds.writeLog h.distinct hreplayed hbuffers).loadBuffers supply₂
  unfold Keyspaces.loadState at hstate
  rw [hloaded] at hstate
  obtain rfl := ok.inj hstate
  obtain ⟨hrootVersion, hrules, hcommits, hstored, hrestore, hapart⟩ :=
    loadFromState_eq_ok hload hfacts
  -- the rules of the store are those that the log installs, each once
  have hruleIds : root.facts.rules.map RuleDefinition.id = space.rules.keys := by
    rw [hrules]
    unfold SortedMap.keys
    rw [map_map]
    exact map_congr_left fun e he => hkeyed e.1 e.2 (get?_eq_some.mpr he)
  have hkeys : space.rules.keys.Nodup := space.rules.pairwise_keys.imp ne_of_lt
  have hperm : (root.facts.rules.map RuleDefinition.id).Perm
      (kernel.log.flatMap fun commit => installedIds commit.facts.catalogChanges) := by
    rw [hruleIds]
    refine (perm_ext_iff_of_nodup hkeys (h.ruleIds.nodup hnodup)).mpr fun id => ?_
    rw [SortedMap.mem_keys, hids id]
    exact ⟨fun hid => hid.resolve_left nofun, Or.inr⟩
  refine h.restarted hreplayed hrestore ⟨hstored, ?_, hruleIds ▸ hkeys⟩ ?_ hperm hapart
  · rw [hcommits]
    exact nofun
  · rw [hrootVersion, hversion]
    unfold lastVersion
    cases kernel.log.getLast? <;> rfl

end RelationKernel

/-! ## Runs and restarts -/

namespace RootSystem

variable {M : Type → Type} [ByteMap M] {s t u : RootSystem M}

/-- The next process: a loaded root over the log, with no transaction open. -/
def restarted (s : RootSystem M) (root : Root M) : RootSystem M := ⟨⟨root, s.kernel.log⟩, [], s.floor⟩

/-- **Runs and restarts.**  A restart loads the log, or the state that the commits of the log have
written, with facts that can be persisted and otherwise as the process reads them. -/
inductive Serves : RootSystem M → RootSystem M → Prop where
  | refl (s : RootSystem M) : Serves s s
  | runs {s t u : RootSystem M} (h : Serves s t) (hruns : Runs t u) : Serves s u
  | fromLog {s t : RootSystem M} (h : Serves s t) {supply : Supply} {root : Root M}
      (hload : RelationKernel.loadFromCommitLog supply t.kernel.log = .ok root) :
      Serves s (t.restarted root)
  | fromState {s t : RootSystem M} (h : Serves s t) {encode : BufferChange → Except String ℕ}
      {supply supply₁ supply₂ : Supply} {space : Keyspaces} {facts : List Fact}
      {state : PersistedKernelState} {root : Root M}
      (hwrite : Keyspaces.empty.writeLog encode supply₁ t.kernel.log = .ok space)
      (hstate : space.loadState supply₂ facts = .ok state)
      (hfacts : ∀ fact ∈ facts, ∀ v ∈ fact.2, v.isPersistable = true)
      (hload : RelationKernel.loadFromState supply state = .ok root) : Serves s (t.restarted root)

/-- **What every process keeps.** -/
structure Serving (s : RootSystem M) : Prop where
  sound : s.Sound
  tidy : s.root.Tidy
  logged : s.kernel.Logged

theorem serving_start : (start : RootSystem M).Serving :=
  ⟨sound_start, tidy_start, RelationKernel.logged_new⟩

theorem Serving.runs (h : s.Serving) (hruns : Runs s t) :
    t.Serving ∧ s.root.buffers.Follows t.root.buffers := by
  have hprogress := hruns.progress h.sound
  have hleaves := hruns.leaves h.sound h.tidy
  exact ⟨⟨hprogress.sound, hleaves.tidy, hleaves.logged h.logged⟩, hprogress.grows.buffers⟩

theorem serving_restarted {root : Root M} (hroot : RelationKernel.Restarted s.kernel root) :
    (s.restarted root).Serving ∧ s.root.buffers.Follows (s.restarted root).root.buffers :=
  ⟨⟨⟨hroot.sound, nofun⟩, hroot.tidy, hroot.logged⟩, hroot.follows⟩

theorem Serves.serving (h : Serves s t) (hs : s.Serving) :
    t.Serving ∧ s.root.buffers.Follows t.root.buffers := by
  induction h with
  | refl => exact ⟨hs, .refl _⟩
  | runs _ hruns ih =>
    obtain ⟨ht, hfollows⟩ := ih
    obtain ⟨hu, hlater⟩ := ht.runs hruns
    exact ⟨hu, hfollows.trans hlater⟩
  | fromLog _ hload ih =>
    obtain ⟨ht, hfollows⟩ := ih
    obtain ⟨hu, hlater⟩ :=
      serving_restarted (ht.logged.loadFromCommitLog ht.sound.root.ruleIds hload)
    exact ⟨hu, hfollows.trans hlater⟩
  | fromState _ hwrite hstate hfacts hload ih =>
    obtain ⟨ht, hfollows⟩ := ih
    obtain ⟨hu, hlater⟩ := serving_restarted
      (ht.logged.loadFromState ht.sound.root.ruleIds hwrite hstate hfacts hload)
    exact ⟨hu, hfollows.trans hlater⟩

/-- **A buffer revision names one text for ever**: whatever a kernel goes through, restarts included, a
buffer keeps its metadata; its revision never decreases, and where it is the same so are the text
and the deleted flag; a deleted buffer stays as it is; and no relation and no other buffer gets its
id or its name. -/
theorem buffer_revisions_hold (h : Serves (start : RootSystem M) s) (h' : Serves s t) :
    ∀ id state, s.root.buffers.get? id = some state →
      (∃ state', t.root.buffers.get? id = some state' ∧ state'.metadata = state.metadata ∧
        state.revision ≤ state'.revision ∧
        (state'.revision = state.revision →
          state'.text.toText = state.text.toText ∧ state'.deleted = state.deleted) ∧
        (state.deleted = true → state'.revision = state.revision)) ∧
      t.root.facts.relations.get? id = none ∧
      (∀ relation other, t.root.facts.relations.get? relation = some other →
        other.metadata.name ≠ state.metadata.name) ∧
      ∀ id' other, t.root.buffers.get? id' = some other →
        other.metadata.name = state.metadata.name → id' = id := by
  obtain ⟨hs, -⟩ := h.serving serving_start
  obtain ⟨ht, hfollows⟩ := h'.serving hs
  intro id state hstate
  obtain ⟨state', hstate', hlater⟩ := hfollows id state hstate
  obtain ⟨hrelation, hname⟩ := ht.tidy.apart id state' hstate'
  refine ⟨⟨state', hstate', hlater.metadata, hlater.le, hlater.same, hlater.frozen⟩, hrelation, ?_, ?_⟩
  · rwa [← hlater.metadata]
  · intro id' other hother hsame
    refine ht.tidy.buffers.named.unique hstate' hother ?_
    rw [hsame, hlater.metadata]

theorem eq_ok_of_toOption {ε α : Type} : ∀ {x : Except ε α} {a : α}, x.toOption = some a → x = .ok a
  | .ok _, _, h => congrArg Except.ok (Option.some.inj h)

/-- A process that has written a durable and a volatile buffer. -/
def twoBuffers : RootSystem Entries :=
  [RootAction.begin, .act 0 (.createBuffer ⟨.ofByte 1, ⟨1⟩, .durable, .span⟩),
    .act 0 (.replaceBuffer (.ofByte 1) 0 0 ['a'] ⟨0, 0⟩),
    .act 0 (.createBuffer ⟨.ofByte 2, ⟨2⟩, .volatile, .span⟩),
    .act 0 (.replaceBuffer (.ofByte 2) 0 0 ['b'] ⟨0, 0⟩),
    .commit 0 (.ok ()) ⟨0, 0⟩ (.ok ())].foldl step start

/-- The revisions and texts of some buffers. -/
def texts (root : Root Entries) : List (ℕ × List Char) :=
  root.buffers.entries.list.map fun e => (e.2.revision, e.2.text.toText)

/-- The root that the process after it loads from the materialized state. -/
def reloaded : Option (Root Entries) :=
  (Keyspaces.empty.writeLog (fun _ => .ok 1) ⟨0, 0⟩ twoBuffers.kernel.log).toOption.bind fun space =>
    (space.loadState ⟨0, 0⟩ []).toOption.bind fun state =>
      (RelationKernel.loadFromState ⟨0, 0⟩ state).toOption

theorem buffer_revisions_hold_twoBuffers : ∃ t : RootSystem Entries, Serves twoBuffers t ∧
    texts twoBuffers.root = [(1, ['a']), (1, ['b'])] ∧ texts t.root = [(1, ['a']), (2, [])] ∧
    ∀ id state, twoBuffers.root.buffers.get? id = some state →
      t.root.facts.relations.get? id = none := by
  have htexts : reloaded.map texts = some [(1, ['a']), (2, [])] := by decide +kernel
  have hbefore : texts twoBuffers.root = [(1, ['a']), (1, ['b'])] := by decide +kernel
  obtain ⟨root, hroot, hafter⟩ := Option.map_eq_some_iff.mp htexts
  obtain ⟨space, hspace, hrest⟩ := Option.bind_eq_some_iff.mp hroot
  obtain ⟨state, hstate, hload⟩ := Option.bind_eq_some_iff.mp hrest
  have hserves : Serves twoBuffers (twoBuffers.restarted root) :=
    .fromState (.refl _) (eq_ok_of_toOption hspace) (eq_ok_of_toOption hstate)
      (nofun) (eq_ok_of_toOption hload)
  have hstart : Serves start twoBuffers := .runs (.refl _) ((Runs.refl _).foldl _)
  exact ⟨_, hserves, hbefore, hafter, fun id state hget =>
    (buffer_revisions_hold hstart hserves id state hget).2.1⟩

end RootSystem

end Mica
