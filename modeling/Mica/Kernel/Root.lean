import Mathlib.Data.Prod.Lex
import Mica.Buffer.Growth
import Mica.Kernel.Commit
import Mica.Kernel.Stratify

/-!
# Kernel/Root — the whole kernel: facts, rules and buffers

A root holds a snapshot of the facts and rules, and the buffers.  Relations and rules change one commit
at a time; transactions write facts and buffers and commit both at once.  A fork is a kernel of its own
that starts at the root and persists nothing; what it has come to is published in one commit
(`RelationKernel.commitStagedSnapshot`).
-/

open SortedList

namespace Mica

/-- A published state of the kernel. -/
structure Root (M : Type → Type) [ByteMap M] where
  facts : Snapshot M
  buffers : BufferStates

/-- A commit with its buffer changes. -/
structure RootCommit where
  facts : Commit
  bufferChanges : List BufferChange
  deriving DecidableEq

/-- A transaction on facts and buffers. -/
structure RootTransaction (M : Type → Type) [ByteMap M] where
  facts : Transaction M
  buffers : BufferTransaction

section Rules

variable {M : Type → Type} [ByteMap M]

/-- `relation_metadata`, in the order of the ids. -/
def Snapshot.relationMetadata (snapshot : Snapshot M) : List RelationMetadata :=
  snapshot.relations.list.map fun e => e.2.metadata

/-- `validate_rule_atom`. -/
def validateRuleAtom (relations : SortedMap RelationId (RelationState M)) (relation : RelationId)
    (terms : List Term) : Except KernelError Unit :=
  match relations.get? relation with
  | none => .error (.unknownRelation relation)
  | some state =>
    if state.metadata.arity ≠ terms.length then
      .error (.arityMismatch relation state.metadata.arity terms.length)
    else .ok ()

/-- `validate_rule_against_relations`. -/
def validateRuleAgainstRelations (relations : SortedMap RelationId (RelationState M)) (rule : Rule) :
    Except KernelError Unit :=
  match validateRuleAtom relations rule.headRelation rule.headTerms with
  | .error e => .error e
  | .ok () => rule.bodyAtoms.forM fun atom => validateRuleAtom relations atom.relation atom.terms

/-- The check that the active rules are stratified. -/
def validateActive (rules : List RuleDefinition) : Except KernelError Unit :=
  match RuleSet.validateStratified ⟨activeRules rules⟩ with
  | .error e => .error (.rule e)
  | .ok () => .ok ()

/-- The `k`-th id that `next_rule_id` tries: `GENERATED_RULE_ID_START + rules.len() + k`, masked. -/
def generatedRuleId (rules : List RuleDefinition) (k : ℕ) : Identity where
  raw := UInt64.ofNat ((0x00d0000000000000 + rules.length + k) % (maxPayload + 1))
  raw_le := by
    rw [UInt64.toNat_ofNat']
    exact (Nat.mod_le _ _).trans (Nat.lt_succ_iff.mp (Nat.mod_lt _ (Nat.succ_pos _)))

/-- `next_rule_id`: the first id that no rule has; `none` if the search never ends.  Of more ids than
there are rules one is free, unless every id is taken. -/
def nextRuleId (rules : List RuleDefinition) : Option Identity :=
  ((List.range (rules.length + 1)).map (generatedRuleId rules)).find? fun id =>
    rules.all fun rule => rule.id ≠ id

/-- `disable_rule_in`. -/
def disableRuleIn (ruleId : Identity) : List RuleDefinition → Except KernelError (List RuleDefinition)
  | [] => .error (.unknownRule ruleId)
  | rule :: rules =>
    if rule.id = ruleId then .ok ({ rule with active := false } :: rules)
    else
      match disableRuleIn ruleId rules with
      | .error e => .error e
      | .ok rules => .ok (rule :: rules)

end Rules

/-! ## Transactions -/

/-- What a transaction can do before it commits.  How the rules, the history of the buffers and the
table of tokens answer is part of it. -/
inductive TransactionAction (M : Type → Type) [ByteMap M] where
  | assert (relation : RelationId) (tuple : Tuple)
  | retract (relation : RelationId) (tuple : Tuple)
  | replaceFunctional (relation : RelationId) (tuple : Tuple)
  | scan (derived : Except KernelError (Option (RelationState M))) (relation : RelationId)
      (bindings : Bindings)
  | createBuffer (metadata : BufferMetadata)
  | replaceBuffer (id : Identity) (start stop : ℕ) (text : List Char) (supply : Supply)
  | deleteBuffer (id : Identity)
  | applyBuffer (id : Identity) (expected : ℕ) (edits : List Replacement) (supply : Supply)
      (reserved : Except KernelError Unit)
  | compactBuffer (id : Identity) (supply : Supply)
  | revertBuffer (id : Identity) (revision expected : ℕ) (historical : Option BufferState)
      (supply : Supply)

/-- New chunks are at an address that is not below a floor. -/
def Supply.atLeast (supply : Supply) (floor : ℕ) : Supply :=
  { supply with chunk := max supply.chunk floor }

namespace RootTransaction

variable {M : Type → Type} [ByteMap M]

/-- `begin`. -/
def new (root : Root M) : RootTransaction M :=
  ⟨Transaction.new root.facts, BufferTransaction.new root.buffers⟩

/-- The buffers after an operation; one that fails changes nothing. -/
def withBuffers (tx : RootTransaction M) (result : Except KernelError BufferTransaction) :
    RootTransaction M :=
  match result with
  | .error _ => tx
  | .ok buffers => { tx with buffers := buffers }

/-- One step of a transaction; `floor` is below the addresses that are free. -/
def act (floor : ℕ) (tx : RootTransaction M) : TransactionAction M → RootTransaction M
  | .assert relation tuple => { tx with facts := (tx.facts.assert relation tuple).1 }
  | .retract relation tuple => { tx with facts := (tx.facts.retract relation tuple).1 }
  | .replaceFunctional relation tuple =>
    { tx with facts := (tx.facts.replaceFunctional relation tuple).1 }
  | .scan derived relation bindings => { tx with facts := (tx.facts.scan derived relation bindings).1 }
  | .createBuffer metadata =>
    tx.withBuffers (tx.buffers.createBuffer tx.facts.base.relationMetadata metadata)
  | .replaceBuffer id start stop text supply =>
    tx.withBuffers (tx.buffers.replaceBuffer id start stop text (supply.atLeast floor))
  | .deleteBuffer id => tx.withBuffers (tx.buffers.deleteBuffer id)
  | .applyBuffer id expected edits supply reserved =>
    tx.withBuffers (tx.buffers.applyBuffer id expected edits (supply.atLeast floor) reserved)
  | .compactBuffer id supply =>
    tx.withBuffers (tx.buffers.compactBuffer id (supply.atLeast floor))
  | .revertBuffer id revision expected historical supply =>
    tx.withBuffers (tx.buffers.revertBuffer id revision expected historical (supply.atLeast floor))

/-- The part of `commit_inner` before anything is persisted: conflicts, then the buffers, then the
facts. -/
def prepare (settled : Except KernelError Unit) (supply : Supply) (current : Root M)
    (tx : RootTransaction M) : Except KernelError (Root M × RootCommit) :=
  match if current.facts.version ≠ tx.facts.base.version then tx.facts.validateConflicts current.facts
    else .ok () with
  | .error e => .error e
  | .ok () =>
    match materializeBuffers current.facts.relationMetadata current.buffers supply tx.buffers with
    | .error e => .error e
    | .ok (buffers, bufferChanges) =>
      match tx.facts.buildNextSnapshot settled current.facts with
      | .error e => .error e
      | .ok (facts, commit) => .ok (⟨facts, buffers⟩, ⟨commit, bufferChanges⟩)

/-- A commit prepares the facts and the buffers. -/
theorem prepare_eq_ok {settled : Except KernelError Unit} {supply : Supply} {current next : Root M}
    {tx : RootTransaction M} {commit : RootCommit}
    (h : tx.prepare settled supply current = .ok (next, commit)) :
    tx.facts.prepare settled current.facts = .ok (next.facts, commit.facts) ∧
      materializeBuffers current.facts.relationMetadata current.buffers supply tx.buffers =
        .ok (next.buffers, commit.bufferChanges) := by
  unfold prepare at h
  split at h
  · cases h
  rename_i hconflicts
  split at h
  · cases h
  rename_i buffers bufferChanges hbuffers
  split at h
  · cases h
  rename_i facts commit hbuild
  obtain ⟨rfl, rfl⟩ := Prod.mk.inj (Except.ok.inj h)
  refine ⟨?_, hbuffers⟩
  unfold Transaction.prepare
  split at hconflicts
  · next hmoved => rw [if_pos hmoved, hconflicts, hbuild]
  · next hmoved => rw [if_neg hmoved, hbuild]

end RootTransaction

/-! ## Operations of the kernel -/

/-- The kernel: the published root, and the commits that the provider has persisted. -/
structure RelationKernel (M : Type → Type) [ByteMap M] where
  root : Root M
  log : List RootCommit

namespace RelationKernel

variable {M : Type → Type} [ByteMap M]

def new : RelationKernel M := ⟨⟨⟨0, SortedMap.empty, [], []⟩, BufferStates.empty⟩, []⟩

/-- Whether a relation of a snapshot is durable. -/
def isDurable (snapshot : Snapshot M) (relation : RelationId) : Bool :=
  (snapshot.relations.get? relation).any fun state => state.metadata.durability = .durable

/-- The text of a volatile buffer is not persisted. -/
def persistentBufferChange (change : BufferChange) : BufferChange :=
  if change.metadata.durability = .volatile then { change with delta := Delta.empty } else change

/-- The commit that `persist_commit_against` hands to the provider, unless nothing is left. -/
def persistentCommit (snapshot : Snapshot M) (commit : RootCommit) :
    Except KernelError (Option RootCommit) :=
  match commit.facts.changes.find? fun c => (snapshot.relations.get? c.relation).isNone with
  | some c => .error (.unknownRelation c.relation)
  | none =>
    let changes := commit.facts.changes.filter fun c => isDurable snapshot c.relation
    let bufferChanges := commit.bufferChanges.map persistentBufferChange
    if commit.facts.catalogChanges.isEmpty && changes.isEmpty && bufferChanges.isEmpty then .ok none
    else .ok (some ⟨⟨commit.facts.version, commit.facts.catalogChanges, changes⟩, bufferChanges⟩)

/-- The end of every commit: persist, then publish.  `persisted` is the provider's answer. -/
def publish (snapshot : Snapshot M) (next : Root M) (commit : RootCommit)
    (persisted : Except String Unit) (kernel : RelationKernel M) :
    RelationKernel M × Except KernelError RootCommit :=
  match persistentCommit snapshot commit with
  | .error e => (kernel, .error e)
  | .ok none => ({ kernel with root := next }, .ok commit)
  | .ok (some persistent) =>
    match persisted with
    | .error message => (kernel, .error (.persistence message))
    | .ok () => (⟨next, kernel.log ++ [persistent]⟩, .ok commit)

/-- A commit of one catalogue change, with the facts and buffers as they are. -/
def commitCatalog (relations : SortedMap RelationId (RelationState M)) (rules : List RuleDefinition)
    (change : CatalogChange) (persisted : Except String Unit) (kernel : RelationKernel M) :
    RelationKernel M × Except KernelError RootCommit :=
  let current := kernel.root.facts
  let commit : Commit := ⟨current.version + 1, [change], []⟩
  kernel.publish current ⟨⟨current.version + 1, relations, rules, current.commits ++ [commit]⟩,
    kernel.root.buffers⟩ ⟨commit, []⟩ persisted

/-- `create_relation`. -/
def createRelation (metadata : RelationMetadata) (persisted : Except String Unit)
    (kernel : RelationKernel M) : RelationKernel M × Except KernelError RootCommit :=
  match (RelationState.empty metadata : Except KernelError (RelationState M)) with
  | .error e => (kernel, .error e)
  | .ok state =>
    if (kernel.root.facts.relations.get? metadata.id).isSome
        || (kernel.root.buffers.get? metadata.id).isSome
        || (kernel.root.buffers.named metadata.name).isSome then
      (kernel, .error (.relationAlreadyExists metadata.id))
    else
      kernel.commitCatalog (kernel.root.facts.relations.insert metadata.id state)
        kernel.root.facts.rules (.relationCreated metadata) persisted

/-- `install_rule`; `none` if the search for an id never ends.  `settled` is how the changes of derived
relations are found. -/
def installRule (rule : Rule) (source : String) (settled : Except KernelError Unit)
    (persisted : Except String Unit) (kernel : RelationKernel M) :
    Option (RelationKernel M × Except KernelError RootCommit) :=
  let current := kernel.root.facts
  match validateRuleAgainstRelations current.relations rule with
  | .error e => some (kernel, .error e)
  | .ok () =>
    match nextRuleId current.rules with
    | none => none
    | some id =>
      let definition : RuleDefinition := ⟨id, rule, source, true⟩
      match validateActive (current.rules ++ [definition]) with
      | .error e => some (kernel, .error e)
      | .ok () =>
        match settled with
        | .error e => some (kernel, .error e)
        | .ok () => some (kernel.commitCatalog current.relations (current.rules ++ [definition])
            (.ruleInstalled definition) persisted)

/-- `disable_rule`. -/
def disableRule (ruleId : Identity) (settled : Except KernelError Unit)
    (persisted : Except String Unit) (kernel : RelationKernel M) :
    RelationKernel M × Except KernelError RootCommit :=
  match disableRuleIn ruleId kernel.root.facts.rules with
  | .error e => (kernel, .error e)
  | .ok rules =>
    match validateActive rules with
    | .error e => (kernel, .error e)
    | .ok () =>
      match settled with
      | .error e => (kernel, .error e)
      | .ok () => kernel.commitCatalog kernel.root.facts.relations rules
        (.ruleDisabled ruleId) persisted

/-- `Transaction::commit`. -/
def commit (settled : Except KernelError Unit) (supply : Supply) (persisted : Except String Unit)
    (tx : RootTransaction M) (kernel : RelationKernel M) :
    RelationKernel M × Except KernelError RootCommit :=
  match tx.prepare settled supply kernel.root with
  | .error e => (kernel, .error e)
  | .ok (next, commit) => kernel.publish kernel.root.facts next commit persisted

/-! ### Staged snapshots -/

/-- `fork_in_memory`. -/
def forkInMemory (kernel : RelationKernel M) : RelationKernel M := ⟨kernel.root, []⟩

/-- The rule of an id, as a map of the rules by id has it: the last one. -/
def ruleOf (rules : List RuleDefinition) (id : Identity) : Option RuleDefinition :=
  rules.reverse.find? fun rule => rule.id = id

/-- The relations of `validate_staged_snapshot`. -/
def validateStagedRelations (staged : Snapshot M) : List RelationMetadata → Except KernelError Unit
  | [] => .ok ()
  | metadata :: rest =>
    match staged.relations.get? metadata.id with
    | none => .error (.unknownRelation metadata.id)
    | some state =>
      if state.metadata ≠ metadata then .error (.relationAlreadyExists metadata.id)
      else validateStagedRelations staged rest

/-- The rules of `validate_staged_snapshot`: none is lost, changed or active again. -/
def validateStagedRules (staged : List RuleDefinition) :
    List RuleDefinition → Except KernelError Unit
  | [] => .ok ()
  | rule :: rest =>
    match ruleOf staged rule.id with
    | none => .error (.unknownRule rule.id)
    | some found =>
      if found.rule ≠ rule.rule ∨ found.source ≠ rule.source then .error (.unknownRule rule.id)
      else if !rule.active && found.active then .error (.unknownRule rule.id)
      else validateStagedRules staged rest

/-- `validate_staged_snapshot`. -/
def validateStagedSnapshot (current staged : Snapshot M) : Except KernelError Unit :=
  match validateStagedRelations staged current.relationMetadata with
  | .error e => .error e
  | .ok () => validateStagedRules staged.rules current.rules

/-- What `staged_catalog_changes` reports of a rule. -/
def stagedRuleChange (current : List RuleDefinition) (rule : RuleDefinition) : Option CatalogChange :=
  match ruleOf current rule.id with
  | none => some (.ruleInstalled rule)
  | some found => if found.active && !rule.active then some (.ruleDisabled rule.id) else none

/-- `staged_catalog_changes`. -/
def stagedCatalogChanges (current staged : Snapshot M) : List CatalogChange :=
  (staged.relationMetadata.filter fun m => (current.relations.get? m.id).isNone).map
      CatalogChange.relationCreated ++
    staged.rules.filterMap (stagedRuleChange current.rules)

/-- `contains_extensional_fact`. -/
def containsExtensionalFact (snapshot : Snapshot M) (relation : RelationId) (tuple : Tuple) :
    Except KernelError Bool :=
  match snapshot.scanExtensional relation (tuple.map some) with
  | .ok rows => .ok (rows.contains tuple)
  | .error e => if e = .unknownRelation relation then .ok false else .error e

/-- What `staged_fact_changes` reports of a fact that was or was not there, and is or is not. -/
def stagedFactChange (relation : RelationId) (tuple : Tuple) : Bool → Bool → Option FactChange
  | false, true => some ⟨relation, tuple, .assert⟩
  | true, false => some ⟨relation, tuple, .retract⟩
  | _, _ => none

/-- The loop of `staged_fact_changes`, over the touched facts. -/
def stagedFactChangesOf (current staged : Snapshot M) :
    List (RelationId ×ₗ Tuple) → Except KernelError (List FactChange)
  | [] => .ok []
  | fact :: rest =>
    let (relation, tuple) := ofLex fact
    match containsExtensionalFact current relation tuple with
    | .error e => .error e
    | .ok before =>
      match containsExtensionalFact staged relation tuple with
      | .error e => .error e
      | .ok after =>
        match stagedFactChangesOf current staged rest with
        | .error e => .error e
        | .ok changes => .ok ((stagedFactChange relation tuple before after).toList ++ changes)

/-- `CommitHistory::since`: from the newest commit back to the first that is not newer. -/
def commitsSince (snapshot : Snapshot M) (version : ℕ) : List Commit :=
  (snapshot.commits.reverse.takeWhile fun c => version < c.version).reverse

/-- `staged_fact_changes`: the facts that the commits of the fork have touched, each once. -/
def stagedFactChanges (current staged : Snapshot M) (commits : List Commit) :
    Except KernelError (List FactChange) :=
  stagedFactChangesOf current staged
    (SortedSet.ofList (commits.flatMap fun commit => commit.changes.map fun c =>
      toLex (c.relation, c.tuple))).list

/-- `commit_staged_snapshot`. -/
def commitStagedSnapshot (expected : ℕ) (staged : Root M) (settled : Except KernelError Unit)
    (persisted : Except String Unit) (kernel : RelationKernel M) :
    RelationKernel M × Except KernelError RootCommit :=
  let current := kernel.root
  if current.facts.version ≠ expected then
    (kernel, .error (.staleStagedSnapshot expected current.facts.version))
  else
    match validateStagedSnapshot current.facts staged.facts with
    | .error e => (kernel, .error e)
    | .ok () =>
      match stagedChanges staged.facts.relationMetadata current.buffers staged.buffers with
      | .error e => (kernel, .error e)
      | .ok bufferChanges =>
        match stagedFactChanges current.facts staged.facts (commitsSince staged.facts expected) with
        | .error e => (kernel, .error e)
        | .ok changes =>
          match settled with
          | .error e => (kernel, .error e)
          | .ok () =>
            let version := current.facts.version + 1
            let commit : Commit :=
              ⟨version, stagedCatalogChanges current.facts staged.facts, changes⟩
            let next : Root M := ⟨⟨version, staged.facts.relations, staged.facts.rules,
              current.facts.commits ++ [commit]⟩, staged.buffers⟩
            kernel.publish next.facts next ⟨commit, bufferChanges⟩ persisted

/-! ### What the operations do -/

section Cases

variable {kernel : RelationKernel M}

/-- The outcome of an operation that published a root. -/
def Published (snapshot : Snapshot M) (kernel : RelationKernel M) (next : Root M) (commit : RootCommit)
    (result : RelationKernel M × Except KernelError RootCommit) : Prop :=
  ∃ persistent, persistentCommit snapshot commit = .ok persistent ∧
    result = (⟨next, kernel.log ++ persistent.toList⟩, .ok commit)

/-- Publication fails and changes nothing, or makes the next root the current one. -/
theorem publish_cases (snapshot : Snapshot M) (next : Root M) (commit : RootCommit)
    (persisted : Except String Unit) (kernel : RelationKernel M) :
    (∃ e, kernel.publish snapshot next commit persisted = (kernel, .error e)) ∨
      Published snapshot kernel next commit (kernel.publish snapshot next commit persisted) := by
  unfold publish Published
  rcases hpersistent : persistentCommit snapshot commit with e | persistent
  · exact .inl ⟨e, rfl⟩
  cases persistent with
  | none => exact .inr ⟨none, rfl, by simp⟩
  | some persistent =>
    cases persisted with
    | error message => exact .inl ⟨_, rfl⟩
    | ok _ => exact .inr ⟨some persistent, rfl, rfl⟩

/-- The next root of a catalogue change. -/
def catalogRoot (relations : SortedMap RelationId (RelationState M)) (rules : List RuleDefinition)
    (change : CatalogChange) (root : Root M) : Root M :=
  ⟨⟨root.facts.version + 1, relations, rules,
    root.facts.commits ++ [⟨root.facts.version + 1, [change], []⟩]⟩, root.buffers⟩

/-- The commit of a catalogue change. -/
def catalogCommit (change : CatalogChange) (root : Root M) : RootCommit :=
  ⟨⟨root.facts.version + 1, [change], []⟩, []⟩

theorem commitCatalog_cases (relations : SortedMap RelationId (RelationState M))
    (rules : List RuleDefinition) (change : CatalogChange) (persisted : Except String Unit)
    (kernel : RelationKernel M) :
    (∃ e, kernel.commitCatalog relations rules change persisted = (kernel, .error e)) ∨
      Published kernel.root.facts kernel (catalogRoot relations rules change kernel.root)
        (catalogCommit change kernel.root) (kernel.commitCatalog relations rules change persisted) :=
  publish_cases kernel.root.facts (catalogRoot relations rules change kernel.root)
    (catalogCommit change kernel.root) persisted kernel

/-- **Everything the creation of a relation can do.** -/
theorem createRelation_cases (metadata : RelationMetadata) (persisted : Except String Unit)
    (kernel : RelationKernel M) :
    (∃ e, kernel.createRelation metadata persisted = (kernel, .error e)) ∨
      ∃ state, (RelationState.empty metadata : Except KernelError (RelationState M)) = .ok state ∧
        kernel.root.facts.relations.get? metadata.id = none ∧
        kernel.root.buffers.get? metadata.id = none ∧
        kernel.root.buffers.named metadata.name = none ∧
        Published kernel.root.facts kernel
          (catalogRoot (kernel.root.facts.relations.insert metadata.id state) kernel.root.facts.rules
            (.relationCreated metadata) kernel.root)
          (catalogCommit (.relationCreated metadata) kernel.root)
          (kernel.createRelation metadata persisted) := by
  unfold createRelation
  split
  · exact .inl ⟨_, rfl⟩
  rename_i state hstate
  split
  · exact .inl ⟨_, rfl⟩
  rename_i hfree
  simp only [Bool.or_eq_true, not_or, Bool.not_eq_true, Option.isSome_eq_false_iff,
    Option.isNone_iff_eq_none] at hfree
  obtain ⟨⟨hrelation, hbuffer⟩, hname⟩ := hfree
  refine (commitCatalog_cases _ _ _ persisted kernel).imp_right fun h => ?_
  exact ⟨state, hstate, hrelation, hbuffer, hname, h⟩

/-- **Everything the installation of a rule can do.** -/
theorem installRule_cases (rule : Rule) (source : String) (settled : Except KernelError Unit)
    (persisted : Except String Unit) (kernel : RelationKernel M)
    {result : RelationKernel M × Except KernelError RootCommit}
    (h : kernel.installRule rule source settled persisted = some result) :
    (∃ e, result = (kernel, .error e)) ∨
      ∃ definition : RuleDefinition, definition.rule = rule ∧ definition.active = true ∧
        (∀ other ∈ kernel.root.facts.rules, other.id ≠ definition.id) ∧
        validateRuleAgainstRelations kernel.root.facts.relations rule = .ok () ∧
        validateActive (kernel.root.facts.rules ++ [definition]) = .ok () ∧
        Published kernel.root.facts kernel
          (catalogRoot kernel.root.facts.relations (kernel.root.facts.rules ++ [definition])
            (.ruleInstalled definition) kernel.root)
          (catalogCommit (.ruleInstalled definition) kernel.root) result := by
  unfold installRule at h
  dsimp only at h
  split at h
  · exact .inl ⟨_, (Option.some.inj h).symm⟩
  rename_i hvalid
  split at h
  · cases h
  rename_i id hid
  split at h
  · exact .inl ⟨_, (Option.some.inj h).symm⟩
  rename_i hactive
  split at h
  · exact .inl ⟨_, (Option.some.inj h).symm⟩
  obtain rfl := Option.some.inj h
  refine (commitCatalog_cases _ _ _ persisted kernel).imp_right fun hpublished => ?_
  refine ⟨⟨id, rule, source, true⟩, rfl, rfl, fun other hother => ?_, hvalid, hactive,
    hpublished⟩
  have hfree := List.find?_some hid
  exact of_decide_eq_true (List.all_eq_true.mp hfree other hother)

/-- **Everything the disabling of a rule can do.** -/
theorem disableRule_cases (ruleId : Identity) (settled : Except KernelError Unit)
    (persisted : Except String Unit) (kernel : RelationKernel M) :
    (∃ e, kernel.disableRule ruleId settled persisted = (kernel, .error e)) ∨
      ∃ rules, disableRuleIn ruleId kernel.root.facts.rules = .ok rules ∧
        validateActive rules = .ok () ∧
        Published kernel.root.facts kernel
          (catalogRoot kernel.root.facts.relations rules (.ruleDisabled ruleId) kernel.root)
          (catalogCommit (.ruleDisabled ruleId) kernel.root)
          (kernel.disableRule ruleId settled persisted) := by
  unfold disableRule
  split
  · exact .inl ⟨_, rfl⟩
  rename_i rules hrules
  split
  · exact .inl ⟨_, rfl⟩
  rename_i hactive
  split
  · exact .inl ⟨_, rfl⟩
  · refine (commitCatalog_cases _ _ _ persisted kernel).imp_right fun h => ?_
    exact ⟨rules, hrules, hactive, h⟩

/-- **Everything a commit can do.** -/
theorem commit_cases (settled : Except KernelError Unit) (supply : Supply)
    (persisted : Except String Unit) (tx : RootTransaction M) (kernel : RelationKernel M) :
    (∃ e, kernel.commit settled supply persisted tx = (kernel, .error e)) ∨
      ∃ next commit, tx.prepare settled supply kernel.root = .ok (next, commit) ∧
        Published kernel.root.facts kernel next commit
          (kernel.commit settled supply persisted tx) := by
  unfold RelationKernel.commit
  split
  · exact .inl ⟨_, rfl⟩
  · next next commit hprepare =>
    refine (publish_cases _ _ _ persisted kernel).imp_right fun h => ?_
    exact ⟨next, commit, hprepare, h⟩

/-- The next root of a staged one. -/
def stagedRoot (current staged : Root M) (changes : List FactChange) : Root M :=
  ⟨⟨current.facts.version + 1, staged.facts.relations, staged.facts.rules, current.facts.commits ++
    [⟨current.facts.version + 1, stagedCatalogChanges current.facts staged.facts, changes⟩]⟩,
    staged.buffers⟩

/-- The commit of a staged root. -/
def stagedCommit (current staged : Root M) (changes : List FactChange)
    (bufferChanges : List BufferChange) : RootCommit :=
  ⟨⟨current.facts.version + 1, stagedCatalogChanges current.facts staged.facts, changes⟩,
    bufferChanges⟩

/-- **Everything a staged commit can do.** -/
theorem commitStagedSnapshot_cases (expected : ℕ) (staged : Root M) (settled : Except KernelError Unit)
    (persisted : Except String Unit) (kernel : RelationKernel M) :
    (∃ e, kernel.commitStagedSnapshot expected staged settled persisted = (kernel, .error e)) ∨
      kernel.root.facts.version = expected ∧
        ∃ bufferChanges changes,
          validateStagedSnapshot kernel.root.facts staged.facts = .ok () ∧
          stagedChanges staged.facts.relationMetadata kernel.root.buffers staged.buffers =
            .ok bufferChanges ∧
          stagedFactChanges kernel.root.facts staged.facts (commitsSince staged.facts expected) =
            .ok changes ∧
          Published (stagedRoot kernel.root staged changes).facts kernel
            (stagedRoot kernel.root staged changes)
            (stagedCommit kernel.root staged changes bufferChanges)
            (kernel.commitStagedSnapshot expected staged settled persisted) := by
  unfold commitStagedSnapshot
  dsimp only
  split
  · exact .inl ⟨_, rfl⟩
  rename_i hversion
  split
  · exact .inl ⟨_, rfl⟩
  rename_i hvalid
  split
  · exact .inl ⟨_, rfl⟩
  rename_i bufferChanges hbuffers
  split
  · exact .inl ⟨_, rfl⟩
  rename_i changes hchanges
  split
  · exact .inl ⟨_, rfl⟩
  · refine (publish_cases _ _ _ persisted kernel).imp_right fun h => ?_
    exact ⟨not_not.mp hversion, bufferChanges, changes, hvalid, hbuffers, hchanges, h⟩

end Cases

end RelationKernel

end Mica
