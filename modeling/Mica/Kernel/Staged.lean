import Mica.Kernel.NetChanges
import Mica.Kernel.Root

/-!
# Kernel/Staged — a fork is published as one commit

Transactions on the live kernel and on its forks run in any order, forks of forks among them.  What any
run can do to a root is `Root.Grows`: relations, rules and buffers are kept, and a fact that is no
longer as it was is named by a commit since.  So the changes of a staged commit are the difference
of the two roots.

* `RootSystem.Runs.sound` — what every run keeps.
* `RootSystem.staged_commit_exact` — a staged commit changes nothing, or publishes the root of the fork
  with exactly its difference to the live one.
-/

open SortedList List SortedMap
open Except (ok.inj)
open Option (some.inj)

namespace Mica

/-! ## Runs -/

/-- A kernel with its open transactions.  What it allocates is not below the floor. -/
structure RootSystem (M : Type → Type) [ByteMap M] where
  kernel : RelationKernel M
  transactions : List (RootTransaction M)
  floor : ℕ

/-- One step of the kernel or of the `i`-th open transaction. -/
inductive RootAction (M : Type → Type) [ByteMap M] where
  | createRelation (metadata : RelationMetadata) (persisted : Except String Unit)
  | installRule (rule : Rule) (source : String) (settled : Except KernelError Unit)
      (persisted : Except String Unit)
  | disableRule (ruleId : Identity) (settled : Except KernelError Unit)
      (persisted : Except String Unit)
  | begin
  | act (i : ℕ) (action : TransactionAction M)
  | commit (i : ℕ) (settled : Except KernelError Unit) (supply : Supply)
      (persisted : Except String Unit)

namespace RootSystem

variable {M : Type → Type} [ByteMap M]

def root (s : RootSystem M) : Root M := s.kernel.root

/-- A kernel without relations. -/
def start : RootSystem M := ⟨RelationKernel.new, [], 0⟩

/-- **One step**; a step of a transaction that is not there does nothing. -/
def step (s : RootSystem M) : RootAction M → RootSystem M
  | .createRelation metadata persisted =>
    { s with kernel := (s.kernel.createRelation metadata persisted).1 }
  | .installRule rule source settled persisted =>
    { s with kernel := ((s.kernel.installRule rule source settled persisted).elim s.kernel Prod.fst) }
  | .disableRule ruleId settled persisted =>
    { s with kernel := (s.kernel.disableRule ruleId settled persisted).1 }
  | .begin => { s with transactions := s.transactions ++ [RootTransaction.new s.root] }
  | .act i action => { s with transactions := s.transactions.modify i fun tx => tx.act s.floor action }
  | .commit i settled supply persisted =>
    match s.transactions[i]? with
    | none => s
    | some tx => { s with
        kernel := (s.kernel.commit settled (supply.atLeast s.floor) persisted tx).1
        transactions := s.transactions.eraseIdx i }

/-- A fork, while the root it starts from stays alive. -/
def fork (s : RootSystem M) : RootSystem M where
  kernel := s.kernel.forkInMemory
  transactions := []
  floor := (s.root.buffers.entries.list.map fun e => e.2.text.bound).foldr max s.floor

/-- The staged commit of a root. -/
def commitStaged (s : RootSystem M) (expected : ℕ) (staged : Root M)
    (settled : Except KernelError Unit)
    (persisted : Except String Unit) : RootSystem M :=
  { s with kernel := (s.kernel.commitStagedSnapshot expected staged settled persisted).1 }

/-- **Runs**: steps, and staged commits of what a fork of an earlier state has come to. -/
inductive Runs : RootSystem M → RootSystem M → Prop where
  | refl (s) : Runs s s
  | step {s t} (h : Runs s t) (action) : Runs s (t.step action)
  | staged {s t u f} (h : Runs s t) (hfork : Runs t.fork f) (hlater : Runs t u) (settled persisted) :
      Runs s (u.commitStaged t.root.facts.version f.root settled persisted)

theorem Runs.foldl {s t : RootSystem M} (h : Runs s t) : ∀ actions : List (RootAction M),
    Runs s (actions.foldl RootSystem.step t)
  | [] => h
  | action :: actions => (h.step action).foldl actions

end RootSystem

/-! ## Rules -/

/-- A rule that is as it was, except that it may have been disabled. -/
structure RuleDefinition.Kept (a b : RuleDefinition) : Prop where
  id : b.id = a.id
  rule : b.rule = a.rule
  source : b.source = a.source
  active : b.active = true → a.active = true

theorem RuleDefinition.Kept.refl (a : RuleDefinition) : a.Kept a := ⟨rfl, rfl, rfl, fun h => h⟩

theorem RuleDefinition.Kept.trans {a b c : RuleDefinition} (h : a.Kept b) (h' : b.Kept c) : a.Kept c :=
  ⟨h'.id.trans h.id, h'.rule.trans h.rule, h'.source.trans h.source, fun hc => h.active (h'.active hc)⟩

/-- Rules are kept in their places, and new ones come after them. -/
def RulesGrow (a b : List RuleDefinition) : Prop :=
  ∃ old new, b = old ++ new ∧ List.Forall₂ RuleDefinition.Kept a old

theorem forall₂_kept_refl (a : List RuleDefinition) : List.Forall₂ RuleDefinition.Kept a a :=
  forall₂_same.mpr fun rule _ => .refl rule

theorem RulesGrow.refl (a : List RuleDefinition) : RulesGrow a a :=
  ⟨a, [], (append_nil a).symm, forall₂_kept_refl a⟩

theorem RulesGrow.append (a new : List RuleDefinition) : RulesGrow a (a ++ new) :=
  ⟨a, new, rfl, forall₂_kept_refl a⟩

theorem forall₂_kept_trans : ∀ {a b c : List RuleDefinition}, List.Forall₂ RuleDefinition.Kept a b →
    List.Forall₂ RuleDefinition.Kept b c → List.Forall₂ RuleDefinition.Kept a c
  | _, _, _, .nil, .nil => .nil
  | _, _, _, .cons h ht, .cons h' ht' => .cons (h.trans h') (forall₂_kept_trans ht ht')

theorem RulesGrow.trans {a b c : List RuleDefinition} (h : RulesGrow a b) (h' : RulesGrow b c) :
    RulesGrow a c := by
  obtain ⟨old, new, rfl, hold⟩ := h
  obtain ⟨old', new', rfl, hold'⟩ := h'
  have hfirst := (forall₂_take_append _ old new hold'.flip).flip
  refine ⟨old'.take old.length, old'.drop old.length ++ new', ?_, forall₂_kept_trans hold hfirst⟩
  rw [← append_assoc, take_append_drop]

theorem RulesGrow.disable {ruleId : Identity} : ∀ {a b : List RuleDefinition},
    disableRuleIn ruleId a = .ok b → List.Forall₂ RuleDefinition.Kept a b ∧
      b.map RuleDefinition.id = a.map RuleDefinition.id
  | rule :: rules, b, h => by
    unfold disableRuleIn at h
    split at h
    · obtain rfl := ok.inj h
      exact ⟨.cons ⟨rfl, rfl, rfl, nofun⟩ (forall₂_kept_refl rules), rfl⟩
    split at h
    · cases h
    rename_i rest hrest
    obtain rfl := ok.inj h
    obtain ⟨hkept, hids⟩ := RulesGrow.disable hrest
    exact ⟨.cons (.refl rule) hkept, congrArg (rule.id :: ·) hids⟩

/-! ## Roots -/

namespace Root

variable {M : Type → Type} [ByteMap M] {a b c : Root M}

/-- **Commits that name every fact that is no longer as it was.** -/
structure Touched (a b : Root M) (commits : List Commit) : Prop where
  newer : ∀ commit ∈ commits, a.facts.version < commit.version
  named : ∀ relation t, (a.facts.Holds relation t ↔ b.facts.Holds relation t) ∨
    ∃ commit ∈ commits, ∃ change ∈ commit.changes, change.relation = relation ∧ change.tuple = t

/-- **What any run can make of a root.** -/
structure Grows (a b : Root M) : Prop where
  le : a.facts.version ≤ b.facts.version
  eq : b.facts.version = a.facts.version → b = a
  metadata : ∀ relation state, a.facts.relations.get? relation = some state →
    ∃ state', b.facts.relations.get? relation = some state' ∧ state'.metadata = state.metadata
  commits : ∃ new, b.facts.commits = a.facts.commits ++ new ∧ Touched a b new
  rules : RulesGrow a.facts.rules b.facts.rules
  buffers : a.buffers.Follows b.buffers

theorem Grows.refl (a : Root M) : a.Grows a where
  le := le_rfl
  eq _ := rfl
  metadata _ state h := ⟨state, h, rfl⟩
  commits := ⟨[], (append_nil _).symm, nofun, fun _ _ => .inl Iff.rfl⟩
  rules := .refl _
  buffers := .refl _

theorem Touched.trans {old new : List Commit} (h : Touched a b old) (h' : Touched b c new)
    (hle : a.facts.version ≤ b.facts.version) : Touched a c (old ++ new) where
  newer commit hcommit := by
    rcases mem_append.mp hcommit with hold | hnew
    · exact h.newer commit hold
    · exact hle.trans_lt (h'.newer commit hnew)
  named relation t := by
    rcases h.named relation t with hab | ⟨commit, hcommit, hchange⟩
    · rcases h'.named relation t with hbc | ⟨commit, hcommit, hchange⟩
      · exact .inl (hab.trans hbc)
      · exact .inr ⟨commit, mem_append_right _ hcommit, hchange⟩
    · exact .inr ⟨commit, mem_append_left _ hcommit, hchange⟩

theorem Grows.trans (h : a.Grows b) (h' : b.Grows c) : a.Grows c where
  le := h.le.trans h'.le
  eq heq := by
    have hle := h.le
    have hle' := h'.le
    rw [h'.eq (by omega), h.eq (by omega)]
  metadata relation state hstate := by
    obtain ⟨state', hstate', hmeta⟩ := h.metadata relation state hstate
    obtain ⟨state'', hstate'', hmeta'⟩ := h'.metadata relation state' hstate'
    exact ⟨state'', hstate'', hmeta'.trans hmeta⟩
  commits := by
    obtain ⟨old, hold, htouched⟩ := h.commits
    obtain ⟨new, hnew, htouched'⟩ := h'.commits
    exact ⟨old ++ new, by rw [hnew, hold, append_assoc], htouched.trans htouched' h.le⟩
  rules := h.rules.trans h'.rules
  buffers := h.buffers.trans h'.buffers

/-- The facts of a later root have grown out of those of the earlier one. -/
theorem Grows.follows (h : a.Grows b) : a.facts.Follows b.facts :=
  ⟨h.metadata, fun heq => congrArg Root.facts (h.eq heq)⟩

/-- **One commit**: the next version, with what has changed. -/
theorem Grows.of_commit {commit : Commit} (hversion : b.facts.version = a.facts.version + 1)
    (hcommit : commit.version = a.facts.version + 1)
    (hcommits : b.facts.commits = a.facts.commits ++ [commit])
    (hmeta : ∀ relation state, a.facts.relations.get? relation = some state →
      ∃ state', b.facts.relations.get? relation = some state' ∧ state'.metadata = state.metadata)
    (hnet : NetChanges a.facts.Holds b.facts.Holds commit.changes)
    (hrules : RulesGrow a.facts.rules b.facts.rules) (hbuffers : a.buffers.Follows b.buffers) :
    a.Grows b where
  le := by omega
  eq heq := by omega
  metadata := hmeta
  commits := by
    refine ⟨[commit], hcommits, fun c hc => ?_, fun relation t => ?_⟩
    · rw [mem_singleton.mp hc]
      omega
    by_cases hnone : ∀ c ∈ commit.changes, (c.relation, c.tuple) ≠ (relation, t)
    · exact .inl (hnet.same hnone)
    · push Not at hnone
      obtain ⟨change, hchange, heq⟩ := hnone
      exact .inr ⟨commit, mem_singleton_self _, change, hchange, Prod.mk.inj heq⟩
  rules := hrules
  buffers := hbuffers

/-- A root without duplicate rules whose facts are stored and whose commits are not from the future. -/
structure Sound (a : Root M) : Prop where
  stored : a.facts.Stored
  commits_le : ∀ commit ∈ a.facts.commits, commit.version ≤ a.facts.version
  ruleIds : (a.facts.rules.map RuleDefinition.id).Nodup

theorem Sound.of_commit {commit : Commit} (h : a.Sound) (hstored : b.facts.Stored)
    (hversion : b.facts.version = a.facts.version + 1) (hcommit : commit.version = a.facts.version + 1)
    (hcommits : b.facts.commits = a.facts.commits ++ [commit])
    (hids : (b.facts.rules.map RuleDefinition.id).Nodup) : b.Sound where
  stored := hstored
  commits_le c hc := by
    rw [hcommits] at hc
    rcases mem_append.mp hc with hold | hnew
    · exact (h.commits_le c hold).trans (by omega)
    · rw [mem_singleton.mp hnew]
      omega
  ruleIds := hids

/-! ### Catalogue changes -/

theorem netChanges_nil {before after : RelationId → Tuple → Prop}
    (h : ∀ relation t, before relation t ↔ after relation t) : NetChanges before after [] where
  assert_iff relation t := by
    rw [mem_nil_iff, h relation t]
    tauto
  retract_iff relation t := by
    rw [mem_nil_iff, h relation t]
    tauto
  ordered := .nil

theorem Sound.createRelation (h : a.Sound) {metadata : RelationMetadata} {state : RelationState M}
    (hempty : (RelationState.empty metadata : Except KernelError (RelationState M)) = .ok state)
    (hfresh : a.facts.relations.get? metadata.id = none) :
    (RelationKernel.catalogRoot (a.facts.relations.insert metadata.id state) a.facts.rules
        (.relationCreated metadata) a).Sound ∧
      a.Grows (RelationKernel.catalogRoot (a.facts.relations.insert metadata.id state) a.facts.rules
        (.relationCreated metadata) a) := by
  obtain ⟨hmeta, hrows, -⟩ := RelationState.empty_spec hempty
  have hget : ∀ relation, relation ≠ metadata.id →
      (a.facts.relations.insert metadata.id state).get? relation = a.facts.relations.get? relation :=
    fun relation hne => get?_insert_of_ne hne
  constructor
  · refine h.of_commit (fun relation state' hstate' => ?_) rfl rfl rfl h.ruleIds
    by_cases hrelation : relation = metadata.id
    · rw [hrelation] at hstate' ⊢
      obtain rfl := some.inj (get?_insert_self.symm.trans hstate')
      exact ⟨.empty hempty, by rw [hmeta]⟩
    · exact h.stored relation state' ((hget relation hrelation).symm.trans hstate')
  refine .of_commit rfl rfl rfl (fun relation state' hstate' => ?_)
    (netChanges_nil fun relation t => ?_)
    (.refl _) (.refl _)
  · have hne : relation ≠ metadata.id := by
      rintro rfl
      cases hfresh.symm.trans hstate'
    exact ⟨state', (hget relation hne).trans hstate', rfl⟩
  · by_cases hrelation : relation = metadata.id
    · subst hrelation
      refine iff_of_false (fun ⟨_, hsome, _⟩ => nomatch hfresh.symm.trans hsome) ?_
      rintro ⟨state', hsome, ht⟩
      obtain rfl := some.inj (get?_insert_self.symm.trans hsome)
      rw [hrows] at ht
      exact SortedSet.notMem_empty t ht
    · exact (Transaction.holdsIn_congr (hget relation hrelation) t).symm

/-- Rules that have grown, over the facts as they were. -/
theorem Sound.setRules (h : a.Sound) {rules : List RuleDefinition} (change : CatalogChange)
    (hgrow : RulesGrow a.facts.rules rules) (hids : (rules.map RuleDefinition.id).Nodup) :
    (RelationKernel.catalogRoot a.facts.relations rules change a).Sound ∧
      a.Grows (RelationKernel.catalogRoot a.facts.relations rules change a) :=
  ⟨h.of_commit h.stored rfl rfl rfl hids,
    .of_commit rfl rfl rfl (fun _ state hstate => ⟨state, hstate, rfl⟩)
      (netChanges_nil fun _ _ => Iff.rfl) hgrow (.refl _)⟩

theorem Sound.installRule (h : a.Sound) {definition : RuleDefinition}
    (hfresh : ∀ other ∈ a.facts.rules, other.id ≠ definition.id) :
    (RelationKernel.catalogRoot a.facts.relations (a.facts.rules ++ [definition])
        (.ruleInstalled definition) a).Sound ∧
      a.Grows (RelationKernel.catalogRoot a.facts.relations (a.facts.rules ++ [definition])
        (.ruleInstalled definition) a) := by
  refine h.setRules _ (.append _ _) ?_
  rw [map_append, map_singleton]
  refine nodup_append.mpr ⟨h.ruleIds, nodup_singleton _, fun id hid id' hid' => ?_⟩
  obtain ⟨other, hother, rfl⟩ := mem_map.mp hid
  rw [mem_singleton.mp hid']
  exact hfresh other hother

theorem Sound.disableRule (h : a.Sound) {ruleId : Identity} {rules : List RuleDefinition}
    (hdisable : disableRuleIn ruleId a.facts.rules = .ok rules) :
    (RelationKernel.catalogRoot a.facts.relations rules (.ruleDisabled ruleId) a).Sound ∧
      a.Grows (RelationKernel.catalogRoot a.facts.relations rules (.ruleDisabled ruleId) a) := by
  obtain ⟨hkept, hids⟩ := RulesGrow.disable hdisable
  exact h.setRules _ ⟨rules, [], (append_nil _).symm, hkept⟩ (hids ▸ h.ruleIds)

/-! ### Commits of transactions -/

theorem Sound.commit (h : a.Sound) {base next : Root M} {tx : RootTransaction M} {commit : RootCommit}
    {settled : Except KernelError Unit} {supply : Supply} {log : List Transaction.LocalWrite}
    (hbase : base.Grows a) (hrun : Transaction.Run base.facts tx.facts log)
    (hbuffers : tx.buffers.base = base.buffers) (hwrites : tx.buffers.Sound BufferStates.empty)
    (hprepare : tx.prepare settled supply a = .ok (next, commit)) : next.Sound ∧ a.Grows next := by
  obtain ⟨hfacts, hmaterialize⟩ := RootTransaction.prepare_eq_ok hprepare
  obtain ⟨hrows, hnone⟩ := Transaction.prepare_rows hrun.tracks h.stored hbase.follows hfacts
  have hnet := Transaction.prepare_netChanges hrun.tracks h.stored hbase.follows hfacts
  obtain ⟨-, relations, changes, -, hcommit, hnext⟩ := Transaction.prepare_eq_ok hfacts
  have hversion : next.facts.version = a.facts.version + 1 := by rw [hnext]
  have hcommitVersion : commit.facts.version = a.facts.version + 1 := by rw [hcommit]
  have hcommits : next.facts.commits = a.facts.commits ++ [commit.facts] := by rw [hnext]
  have hrules : next.facts.rules = a.facts.rules := by rw [hnext]
  have hmeta : ∀ relation state, a.facts.relations.get? relation = some state →
      ∃ state', next.facts.relations.get? relation = some state' ∧
        state'.metadata = state.metadata := fun relation state hstate => by
    obtain ⟨state', hstate', -, hmeta, -⟩ := hrows relation state hstate
    exact ⟨state', hstate', hmeta⟩
  have hstored : next.facts.Stored := by
    intro relation state' hstate'
    cases hget : a.facts.relations.get? relation with
    | none => exact nomatch (hnone relation hget).symm.trans hstate'
    | some state =>
      obtain ⟨state'', hstate'', hstored, hmeta, -⟩ := hrows relation state hget
      obtain rfl := some.inj (hstate'.symm.trans hstate'')
      exact ⟨hstored, hmeta ▸ (h.stored relation state hget).2⟩
  have hfollows : a.buffers.Follows next.buffers :=
    (follows_materializeBuffers hwrites nofun (hbuffers ▸ hbase.buffers) nofun hmaterialize).1
  exact ⟨h.of_commit hstored hversion hcommitVersion hcommits (hrules ▸ h.ruleIds),
    .of_commit hversion hcommitVersion hcommits hmeta hnet (hrules ▸ .refl _) hfollows⟩

end Root

/-! ## Staged commits -/

namespace RelationKernel

variable {M : Type → Type} [ByteMap M] {current staged : Snapshot M}

/-- A fact is looked up by all its values. -/
theorem containsExtensionalFact_spec {snapshot : Snapshot M} {relation : RelationId} {t : Tuple}
    {found : Bool} (h : containsExtensionalFact snapshot relation t = .ok found) :
    found = true ↔ snapshot.Holds relation t := by
  unfold containsExtensionalFact Snapshot.scanExtensional Snapshot.relation at h
  cases hstate : snapshot.relations.get? relation with
  | none =>
    rw [hstate] at h
    dsimp only [Except.bind] at h
    rw [if_pos rfl] at h
    obtain rfl := ok.inj h
    refine iff_of_false nofun ?_
    rintro ⟨state, hsome, -⟩
    cases hstate.symm.trans hsome
  | some state =>
    rw [hstate] at h
    dsimp only [Except.bind] at h
    rw [Snapshot.holds_iff hstate]
    unfold RelationState.scan at h
    rw [fullTupleBindingValues_eq_some.mpr rfl] at h
    cases hvalid : state.metadata.validateBindings (t.map some) with
    | error e =>
      rw [hvalid] at h
      dsimp only at h
      split at h
      · next heq =>
        rw [heq] at hvalid
        unfold RelationMetadata.validateBindings at hvalid
        split at hvalid <;> exact nomatch hvalid
      · cases h
    | ok _ =>
      rw [hvalid] at h
      dsimp only at h
      obtain rfl := ok.inj h
      rw [TupleStore.tupleForValues_eq, contains_iff_mem]
      split
      · next hmem => exact iff_of_true (mem_singleton_self t) hmem
      · next hmem => exact iff_of_false not_mem_nil hmem

theorem mem_stagedFactChange {relation : RelationId} {t : Tuple} {before after : Bool}
    {change : FactChange} : change ∈ (stagedFactChange relation t before after).toList ↔
      (change = ⟨relation, t, .assert⟩ ∧ before = false ∧ after = true) ∨
        (change = ⟨relation, t, .retract⟩ ∧ before = true ∧ after = false) := by
  cases before <;> cases after <;> simp [stagedFactChange, eq_comm]

/-- What the loop over the touched facts reports. -/
theorem stagedFactChangesOf_spec : ∀ {facts : List (RelationId ×ₗ Tuple)} {changes : List FactChange},
    facts.Pairwise (· < ·) → stagedFactChangesOf current staged facts = .ok changes →
      (∀ relation t, ⟨relation, t, .assert⟩ ∈ changes ↔ toLex (relation, t) ∈ facts ∧
        ¬ current.Holds relation t ∧ staged.Holds relation t) ∧
      (∀ relation t, ⟨relation, t, .retract⟩ ∈ changes ↔ toLex (relation, t) ∈ facts ∧
        current.Holds relation t ∧ ¬ staged.Holds relation t) ∧
      changes.Pairwise FactChange.Before
  | [], _, _, h => by
    obtain rfl := ok.inj h
    exact ⟨fun _ _ => by simp, fun _ _ => by simp, .nil⟩
  | fact :: facts, _, hsorted, h => by
    obtain ⟨hlt, hsorted'⟩ := pairwise_cons.mp hsorted
    unfold stagedFactChangesOf at h
    obtain ⟨relation, t, rfl⟩ : ∃ relation t, fact = toLex (relation, t) := ⟨_, _, rfl⟩
    dsimp only [ofLex_toLex] at h
    split at h
    · cases h
    rename_i before hbefore
    split at h
    · cases h
    rename_i after hafter
    split at h
    · cases h
    rename_i rest hrest
    obtain rfl := ok.inj h
    obtain ⟨hassert, hretract, hordered⟩ := stagedFactChangesOf_spec hsorted' hrest
    have hfound := containsExtensionalFact_spec hbefore
    have hfound' := containsExtensionalFact_spec hafter
    have hcons : ∀ r u, toLex (r, u) ∈ toLex (relation, t) :: facts ↔
        (r = relation ∧ u = t) ∨ toLex (r, u) ∈ facts := fun r u => by
      rw [mem_cons, EmbeddingLike.apply_eq_iff_eq, Prod.mk.injEq]
    refine ⟨fun r u => ?_, fun r u => ?_, pairwise_append.mpr ⟨?_, hordered, ?_⟩⟩
    · rw [mem_append, mem_stagedFactChange, hassert, hcons, FactChange.mk.injEq,
        FactChange.mk.injEq]
      constructor
      · rintro ((⟨⟨rfl, rfl, -⟩, hnot, hthere⟩ | ⟨⟨-, -, hkind⟩, -⟩) | ⟨hmem, hholds⟩)
        · rw [← hfound, ← hfound', hnot]
          exact ⟨.inl ⟨rfl, rfl⟩, Bool.false_ne_true, hthere⟩
        · cases hkind
        · exact ⟨.inr hmem, hholds⟩
      · rintro ⟨⟨rfl, rfl⟩ | hmem, hnot, hthere⟩
        · rw [← hfound, Bool.not_eq_true] at hnot
          exact .inl (.inl ⟨⟨rfl, rfl, rfl⟩, hnot, hfound'.mpr hthere⟩)
        · exact .inr ⟨hmem, hnot, hthere⟩
    · rw [mem_append, mem_stagedFactChange, hretract, hcons, FactChange.mk.injEq,
        FactChange.mk.injEq]
      constructor
      · rintro ((⟨⟨-, -, hkind⟩, -⟩ | ⟨⟨rfl, rfl, -⟩, hthere, hnot⟩) | ⟨hmem, hholds⟩)
        · cases hkind
        · rw [← hfound, ← hfound', hnot]
          exact ⟨.inl ⟨rfl, rfl⟩, hthere, nofun⟩
        · exact ⟨.inr hmem, hholds⟩
      · rintro ⟨⟨rfl, rfl⟩ | hmem, hthere, hnot⟩
        · rw [← hfound', Bool.not_eq_true] at hnot
          exact .inl (.inr ⟨⟨rfl, rfl, rfl⟩, hfound.mpr hthere, hnot⟩)
        · exact .inr ⟨hmem, hthere, hnot⟩
    · cases stagedFactChange relation t before after with
      | none => exact .nil
      | some change => exact pairwise_singleton _ _
    · -- the facts of the rest come later
      rintro change hchange ⟨r, u, kind⟩ hrest'
      have hmem : toLex (r, u) ∈ facts := by
        cases kind with
        | assert => exact ((hassert r u).mp hrest').1
        | retract => exact ((hretract r u).mp hrest').1
      rcases mem_stagedFactChange.mp hchange with ⟨rfl, -⟩ | ⟨rfl, -⟩ <;>
        exact Prod.Lex.lt_iff.mp (hlt _ hmem)

/-- **The fact changes of a staged snapshot are its difference to the live one**, if its commits name
everything that is not as it was. -/
theorem stagedFactChanges_netChanges {commits : List Commit} {changes : List FactChange}
    (hnamed : ∀ relation t, (current.Holds relation t ↔ staged.Holds relation t) ∨
      ∃ commit ∈ commits, ∃ change ∈ commit.changes, change.relation = relation ∧ change.tuple = t)
    (h : stagedFactChanges current staged commits = .ok changes) :
    NetChanges current.Holds staged.Holds changes := by
  obtain ⟨hassert, hretract, hordered⟩ := stagedFactChangesOf_spec (SortedSet.sorted _) h
  have htouched : ∀ relation t, (¬ (current.Holds relation t ↔ staged.Holds relation t)) →
      toLex (relation, t) ∈ (SortedSet.ofList (commits.flatMap fun commit =>
        commit.changes.map fun c => toLex (c.relation, c.tuple))).list := by
    intro relation t hdiffers
    obtain ⟨commit, hcommit, change, hchange, rfl, rfl⟩ := (hnamed relation t).resolve_left hdiffers
    refine SortedSet.mem_ofList.mpr (mem_flatMap.mpr ⟨commit, hcommit, ?_⟩)
    exact mem_map.mpr ⟨change, hchange, rfl⟩
  refine ⟨fun relation t => ?_, fun relation t => ?_, hordered⟩
  · rw [hassert]
    exact ⟨And.right, fun hholds => ⟨htouched relation t (by tauto), hholds⟩⟩
  · rw [hretract]
    exact ⟨And.right, fun hholds => ⟨htouched relation t (by tauto), hholds⟩⟩

/-- The commits of a fork are those since it was made. -/
theorem commitsSince_eq {version : ℕ} {old new : List Commit} (h : staged.commits = old ++ new)
    (hold : ∀ commit ∈ old, commit.version ≤ version)
    (hnew : ∀ commit ∈ new, version < commit.version) : commitsSince staged version = new := by
  unfold commitsSince
  have hnone : (old.reverse.takeWhile fun c => decide (version < c.version)) = [] := by
    rw [takeWhile_eq_nil_iff]
    intro hpos
    have hle := hold old.reverse[0] (mem_reverse.mp (getElem_mem hpos))
    simpa using hle
  rw [h, reverse_append, takeWhile_append_of_pos fun c hc => ?_, hnone, append_nil,
    reverse_reverse]
  exact decide_eq_true (hnew c (mem_reverse.mp hc))

theorem ruleOf_eq_some {rules : List RuleDefinition} (hids : (rules.map RuleDefinition.id).Nodup)
    {id : Identity} {rule : RuleDefinition} :
    ruleOf rules id = some rule ↔ rule ∈ rules ∧ rule.id = id := by
  unfold ruleOf
  constructor
  · intro h
    have hid := find?_some h
    exact ⟨mem_reverse.mp (mem_of_find?_eq_some h), of_decide_eq_true hid⟩
  rintro ⟨hmem, rfl⟩
  cases hfind : rules.reverse.find? fun other => other.id = rule.id with
  | none =>
    have hall := find?_eq_none.mp hfind rule (mem_reverse.mpr hmem)
    exact absurd (decide_eq_true rfl) hall
  | some found =>
    have hfound := mem_reverse.mp (mem_of_find?_eq_some hfind)
    have hid := find?_some hfind
    exact congrArg some (inj_on_of_nodup_map hids hfound hmem (of_decide_eq_true hid))

theorem ruleOf_eq_none {rules : List RuleDefinition} {id : Identity} :
    ruleOf rules id = none ↔ ∀ rule ∈ rules, rule.id ≠ id := by
  unfold ruleOf
  rw [find?_eq_none]
  simp

theorem validateStagedRelations_eq_ok : ∀ {metadata : List RelationMetadata},
    validateStagedRelations staged metadata = .ok () → ∀ m ∈ metadata,
      ∃ state, staged.relations.get? m.id = some state ∧ state.metadata = m
  | m :: rest, h, m', hmem => by
    unfold validateStagedRelations at h
    split at h
    · cases h
    rename_i state hstate
    split at h
    · cases h
    rename_i hsame
    rcases mem_cons.mp hmem with rfl | hmem
    · exact ⟨state, hstate, not_not.mp hsame⟩
    · exact validateStagedRelations_eq_ok h m' hmem

theorem validateStagedRules_eq_ok {staged : List RuleDefinition} : ∀ {rules : List RuleDefinition},
    validateStagedRules staged rules = .ok () → ∀ rule ∈ rules,
      ∃ found, ruleOf staged rule.id = some found ∧ found.rule = rule.rule ∧
        found.source = rule.source ∧ (found.active = true → rule.active = true)
  | rule :: rest, h, rule', hmem => by
    unfold validateStagedRules at h
    split at h
    · cases h
    rename_i found hfound
    split at h
    · cases h
    rename_i hsame
    split at h
    · cases h
    rename_i hactive
    rcases mem_cons.mp hmem with rfl | hmem
    · push Not at hsame
      refine ⟨found, hfound, hsame.1, hsame.2, fun hfoundActive => ?_⟩
      rwa [hfoundActive, Bool.and_true, Bool.not_eq_true, Bool.not_eq_false'] at hactive
    · exact validateStagedRules_eq_ok h rule' hmem

end RelationKernel

/-- **The difference between the catalogues of two snapshots.** -/
structure NetCatalog {M : Type → Type} [ByteMap M] (before after : Snapshot M)
    (changes : List CatalogChange) : Prop where
  created_iff : ∀ m, .relationCreated m ∈ changes ↔ before.relations.get? m.id = none ∧
    ∃ state, after.relations.get? m.id = some state ∧ state.metadata = m
  installed_iff : ∀ rule, .ruleInstalled rule ∈ changes ↔ rule ∈ after.rules ∧
    ∀ old ∈ before.rules, old.id ≠ rule.id
  disabled_iff : ∀ id, .ruleDisabled id ∈ changes ↔
    (∃ rule ∈ before.rules, rule.id = id ∧ rule.active = true) ∧
      ∃ rule ∈ after.rules, rule.id = id ∧ rule.active = false
  /-- Each change is there once. -/
  nodup : changes.Nodup
  /-- No relation is lost, and none has other metadata. -/
  relations : ∀ relation state, before.relations.get? relation = some state →
    ∃ state', after.relations.get? relation = some state' ∧ state'.metadata = state.metadata
  /-- No rule is lost or active again. -/
  rules : ∀ rule ∈ before.rules, ∃ rule' ∈ after.rules, rule.Kept rule'

namespace RelationKernel

variable {M : Type → Type} [ByteMap M] {current staged : Snapshot M}

/-- The metadata of the relations, by their ids. -/
theorem mem_relationMetadata {snapshot : Snapshot M} (hstored : snapshot.Stored)
    {m : RelationMetadata} : m ∈ snapshot.relationMetadata ↔
      ∃ state, snapshot.relations.get? m.id = some state ∧ state.metadata = m := by
  unfold Snapshot.relationMetadata
  rw [mem_map]
  constructor
  · rintro ⟨⟨relation, state⟩, hmem, rfl⟩
    have hget := get?_eq_some.mpr hmem
    exact ⟨state, by rw [(hstored relation state hget).2, hget], rfl⟩
  · rintro ⟨state, hget, hmeta⟩
    exact ⟨(m.id, state), get?_eq_some.mp hget, hmeta⟩

theorem nodup_relationMetadata {snapshot : Snapshot M} (hstored : snapshot.Stored) :
    (snapshot.relationMetadata.map RelationMetadata.id).Nodup := by
  unfold Snapshot.relationMetadata
  rw [map_map]
  refine pairwise_map.mpr (snapshot.relations.sorted.imp_of_mem fun {a b} ha hb hab => ?_)
  dsimp only [Function.comp_apply]
  rw [(hstored a.1 a.2 (get?_eq_some.mpr ha)).2,
    (hstored b.1 b.2 (get?_eq_some.mpr hb)).2]
  exact hab.ne

/-- What a staged snapshot reports of a rule. -/
theorem stagedRuleChange_eq_some (hids : (current.rules.map RuleDefinition.id).Nodup)
    {rule : RuleDefinition} {change : CatalogChange} :
    stagedRuleChange current.rules rule = some change ↔
      (change = .ruleInstalled rule ∧ ∀ old ∈ current.rules, old.id ≠ rule.id) ∨
        (change = .ruleDisabled rule.id ∧ rule.active = false ∧
          ∃ old ∈ current.rules, old.id = rule.id ∧ old.active = true) := by
  unfold stagedRuleChange
  cases hrule : ruleOf current.rules rule.id with
  | none =>
    have hnone := ruleOf_eq_none.mp hrule
    constructor
    · rintro h
      exact .inl ⟨(some.inj h).symm, hnone⟩
    · rintro (⟨rfl, -⟩ | ⟨-, -, old, hold, hid, -⟩)
      · rfl
      · exact absurd hid (hnone old hold)
  | some found =>
    obtain ⟨hmem, hid⟩ := (ruleOf_eq_some hids).mp hrule
    dsimp only
    constructor
    · intro h
      split at h
      · next hchange =>
        rw [Bool.and_eq_true, Bool.not_eq_true'] at hchange
        exact .inr ⟨(some.inj h).symm, hchange.2, found, hmem, hid, hchange.1⟩
      · cases h
    rintro (⟨-, hfresh⟩ | ⟨rfl, hinactive, old, hold, hold', hactive⟩)
    · exact absurd hid (hfresh found hmem)
    · obtain rfl := inj_on_of_nodup_map hids hold hmem (hold'.trans hid.symm)
      rw [hactive, hinactive]
      rfl

/-- **The catalogue changes of a staged snapshot are its difference to the live one.** -/
theorem stagedCatalogChanges_netCatalog (hcurrent : current.Stored) (hstaged : staged.Stored)
    (hids : (current.rules.map RuleDefinition.id).Nodup)
    (hids' : (staged.rules.map RuleDefinition.id).Nodup)
    (hvalid : validateStagedSnapshot current staged = .ok ()) :
    NetCatalog current staged (stagedCatalogChanges current staged) := by
  unfold validateStagedSnapshot at hvalid
  split at hvalid
  · cases hvalid
  rename_i hrelations
  have hkept : ∀ rule ∈ current.rules, ∃ rule' ∈ staged.rules, rule.Kept rule' := by
    intro rule hrule
    obtain ⟨found, hfound, hsame, hsource, hactive⟩ := validateStagedRules_eq_ok hvalid rule hrule
    obtain ⟨hmem, hid⟩ := (ruleOf_eq_some hids').mp hfound
    exact ⟨found, hmem, hid, hsame, hsource, hactive⟩
  have hcreated : ∀ {change : CatalogChange},
      change ∈ (staged.relationMetadata.filter fun m => (current.relations.get? m.id).isNone).map
        CatalogChange.relationCreated ↔ ∃ m, change = .relationCreated m ∧
          current.relations.get? m.id = none ∧
            ∃ state, staged.relations.get? m.id = some state ∧ state.metadata = m := by
    intro change
    rw [mem_map]
    constructor
    · rintro ⟨m, hm, rfl⟩
      obtain ⟨hmem, hnone⟩ := mem_filter.mp hm
      exact ⟨m, rfl, Option.isNone_iff_eq_none.mp hnone, (mem_relationMetadata hstaged).mp hmem⟩
    · rintro ⟨m, rfl, hnone, hstate⟩
      exact ⟨m, mem_filter.mpr ⟨(mem_relationMetadata hstaged).mpr hstate,
        Option.isNone_iff_eq_none.mpr hnone⟩, rfl⟩
  have hrule : ∀ {change : CatalogChange},
      change ∈ staged.rules.filterMap (stagedRuleChange current.rules) ↔
        ∃ rule ∈ staged.rules, (change = .ruleInstalled rule ∧
          ∀ old ∈ current.rules, old.id ≠ rule.id) ∨
        (change = .ruleDisabled rule.id ∧ rule.active = false ∧
          ∃ old ∈ current.rules, old.id = rule.id ∧ old.active = true) := by
    intro change
    rw [mem_filterMap]
    exact exists_congr fun rule => and_congr_right fun _ => stagedRuleChange_eq_some hids
  unfold stagedCatalogChanges
  refine ⟨fun m => ?_, fun rule => ?_, fun id => ?_, ?_, fun relation state hstate => ?_, hkept⟩
  · rw [mem_append, hcreated, hrule]
    constructor
    · rintro (⟨m', heq, h⟩ | ⟨rule, -, ⟨heq, -⟩ | ⟨heq, -⟩⟩)
      · exact (CatalogChange.relationCreated.inj heq) ▸ h
      · cases heq
      · cases heq
    · exact fun h => .inl ⟨m, rfl, h⟩
  · rw [mem_append, hcreated, hrule]
    constructor
    · rintro (⟨m', heq, -⟩ | ⟨rule', hmem, ⟨heq, hfresh⟩ | ⟨heq, -⟩⟩)
      · cases heq
      · obtain rfl := CatalogChange.ruleInstalled.inj heq
        exact ⟨hmem, hfresh⟩
      · cases heq
    · exact fun ⟨hmem, hfresh⟩ => .inr ⟨rule, hmem, .inl ⟨rfl, hfresh⟩⟩
  · rw [mem_append, hcreated, hrule]
    constructor
    · rintro (⟨m', heq, -⟩ | ⟨rule', hmem, ⟨heq, -⟩ | ⟨heq, hinactive, hold⟩⟩)
      · cases heq
      · cases heq
      · obtain rfl := CatalogChange.ruleDisabled.inj heq
        exact ⟨hold, rule', hmem, rfl, hinactive⟩
    · rintro ⟨hold, rule, hmem, rfl, hinactive⟩
      exact .inr ⟨rule, hmem, .inr ⟨rfl, hinactive, hold⟩⟩
  · refine nodup_append.mpr ⟨?_, ?_, fun change h change' h' => ?_⟩
    · refine ((List.Nodup.of_map _ (nodup_relationMetadata hstaged)).filter _).map ?_
      exact fun _ _ h => CatalogChange.relationCreated.inj h
    · -- different rules have different ids
      refine pairwise_filterMap.mpr ((pairwise_map.mp hids').imp fun {a b} hne c hc d hd => ?_)
      rintro rfl
      rcases (stagedRuleChange_eq_some hids).mp hc with ⟨rfl, -⟩ | ⟨rfl, -⟩ <;>
        rcases (stagedRuleChange_eq_some hids).mp hd with ⟨heq, -⟩ | ⟨heq, -⟩
      · exact hne (congrArg RuleDefinition.id (CatalogChange.ruleInstalled.inj heq))
      · cases heq
      · cases heq
      · exact hne (CatalogChange.ruleDisabled.inj heq)
    · rintro rfl
      obtain ⟨m, rfl, -⟩ := hcreated.mp h
      obtain ⟨rule, -, ⟨heq, -⟩ | ⟨heq, -⟩⟩ := hrule.mp h'
      · cases heq
      · cases heq
  · have hid := (hcurrent relation state hstate).2
    obtain ⟨state', hstate', hmeta⟩ := validateStagedRelations_eq_ok hrelations state.metadata
      ((mem_relationMetadata hcurrent).mpr ⟨state, by rw [hid, hstate], rfl⟩)
    exact ⟨state', hid ▸ hstate', hmeta⟩

end RelationKernel

/-! ## What every run keeps -/

/-- The texts of some buffers are below a floor. -/
def BufferStates.Under (live : BufferStates) (floor : ℕ) : Prop :=
  ∀ id state, live.get? id = some state → state.text.bound ≤ floor

theorem BufferStates.Under.spares {live : BufferStates} {floor : ℕ} (h : live.Under floor)
    (supply : Supply) : (supply.atLeast floor).Spares live :=
  fun id state hstate => (h id state hstate).trans (le_max_right _ _)

theorem BufferStates.agreesWith_self (live : BufferStates) : live.AgreesWith live := by
  intro id previous state hprevious hstate
  obtain rfl := some.inj (hprevious.symm.trans hstate)
  exact previous.text.agrees_self

namespace RootTransaction

variable {M : Type → Type} [ByteMap M] {tx : RootTransaction M} {live : BufferStates}

theorem withBuffers_cases (result : Except KernelError BufferTransaction) :
    tx.withBuffers result = tx ∨ ∃ buffers, result = .ok buffers ∧
      tx.withBuffers result = { tx with buffers := buffers } := by
  cases result with
  | error e => exact .inl rfl
  | ok buffers => exact .inr ⟨buffers, rfl, rfl⟩

/-- The buffers of a transaction after a step. -/
theorem sound_act (floor : ℕ) (hsound : tx.buffers.Sound live)
    (hagrees : live.AgreesWith tx.buffers.base)
    (hspares : ∀ (id : Identity) (supply : Supply) previous, live.get? id = some previous →
      previous.text.bound ≤ ((supply.atLeast floor).above (tx.buffers.baseText id)).chunk)
    (action : TransactionAction M) :
    (tx.act floor action).buffers.Sound live ∧
      (tx.act floor action).buffers.base = tx.buffers.base := by
  have hbuffers : ∀ result : Except KernelError BufferTransaction,
      (∀ buffers, result = .ok buffers → buffers.Sound live ∧ buffers.base = tx.buffers.base) →
      (tx.withBuffers result).buffers.Sound live ∧
        (tx.withBuffers result).buffers.base = tx.buffers.base := by
    intro result hresult
    rcases tx.withBuffers_cases result with heq | ⟨buffers, hok, heq⟩
    · rw [heq]
      exact ⟨hsound, rfl⟩
    · rw [heq]
      exact hresult buffers hok
  cases action with
  | assert relation t => exact ⟨hsound, rfl⟩
  | retract relation t => exact ⟨hsound, rfl⟩
  | replaceFunctional relation t => exact ⟨hsound, rfl⟩
  | scan derived relation bindings => exact ⟨hsound, rfl⟩
  | createBuffer metadata =>
    exact hbuffers _ fun _ => BufferTransaction.sound_createBuffer hsound
  | replaceBuffer id start stop text supply =>
    exact hbuffers _ fun _ =>
      BufferTransaction.sound_replaceBuffer hsound hagrees (hspares id supply)
  | deleteBuffer id => exact hbuffers _ fun _ => BufferTransaction.sound_deleteBuffer hsound
  | applyBuffer id expected edits supply reserved =>
    exact hbuffers _ fun _ =>
      BufferTransaction.sound_applyBuffer hsound hagrees (hspares id supply)
  | compactBuffer id supply =>
    exact hbuffers _ fun _ =>
      BufferTransaction.sound_compactBuffer hsound (hspares id supply)
  | revertBuffer id revision expected historical supply =>
    exact hbuffers _ fun _ =>
      BufferTransaction.sound_revertBuffer hsound (hspares id supply)

/-- The facts of a transaction after a step. -/
theorem run_act (floor : ℕ) {base : Snapshot M} {log : List Transaction.LocalWrite}
    (h : Transaction.Run base tx.facts log) (action : TransactionAction M) :
    ∃ log', Transaction.Run base (tx.act floor action).facts log' := by
  have hwrite : ∀ relation t change, ∃ log',
      Transaction.Run base (tx.facts.applyLocalChange relation t change).1 log' := by
    intro relation t change
    cases hresult : (tx.facts.applyLocalChange relation t change) with
    | mk tx' answer =>
      cases answer with
      | ok _ => exact ⟨_, h.wrote hresult⟩
      | error e => exact ⟨_, h.refused hresult⟩
  have hbuffers : ∀ result : Except KernelError BufferTransaction,
      ∃ log', Transaction.Run base (tx.withBuffers result).facts log' := by
    intro result
    rcases tx.withBuffers_cases result with heq | ⟨buffers, -, heq⟩ <;> rw [heq]
    · exact ⟨log, h⟩
    · exact ⟨log, h⟩
  cases action with
  | assert relation t => exact hwrite relation t .assert
  | retract relation t => exact hwrite relation t .retract
  | replaceFunctional relation t =>
    obtain ⟨log', hrun⟩ := h.replaceFunctional relation t
    exact ⟨_, hrun⟩
  | scan derived relation bindings => exact ⟨_, h.read⟩
  | createBuffer metadata => exact hbuffers _
  | replaceBuffer id start stop text supply => exact hbuffers _
  | deleteBuffer id => exact hbuffers _
  | applyBuffer id expected edits supply reserved => exact hbuffers _
  | compactBuffer id supply => exact hbuffers _
  | revertBuffer id revision expected historical supply => exact hbuffers _

end RootTransaction

namespace RootSystem

variable {M : Type → Type} [ByteMap M] {s t u f : RootSystem M} {live : BufferStates}

/-- **What every step keeps**: the root is sound, and every open transaction is a run over an earlier
one. -/
structure Sound (s : RootSystem M) : Prop where
  root : s.root.Sound
  runs : ∀ tx ∈ s.transactions, ∃ (base : Root M) (log : _), base.Grows s.root ∧
    Transaction.Run base.facts tx.facts log ∧ tx.buffers.base = base.buffers ∧
    tx.buffers.Sound tx.buffers.base

/-- The buffers, and those of the open transactions, have the chunks of the live ones or newer ones. -/
structure Agrees (live : BufferStates) (s : RootSystem M) : Prop where
  root : live.AgreesWith s.root.buffers
  transactions : ∀ tx ∈ s.transactions, tx.buffers.Sound live ∧ live.AgreesWith tx.buffers.base

/-- **What a run has done.** -/
structure Progress (s t : RootSystem M) : Prop where
  sound : t.Sound
  floor : t.floor = s.floor
  grows : s.root.Grows t.root
  agrees : ∀ live : BufferStates, live.Under s.floor → Agrees live s → Agrees live t

theorem Progress.refl (h : s.Sound) : Progress s s := ⟨h, rfl, .refl _, fun _ _ h => h⟩

theorem Progress.trans (h : Progress s t) (h' : Progress t u) : Progress s u :=
  ⟨h'.sound, h'.floor.trans h.floor, h.grows.trans h'.grows, fun live hunder hagrees =>
    h'.agrees live (h.floor ▸ hunder) (h.agrees live hunder hagrees)⟩

/-- A step that changes the root. -/
theorem Sound.progress_kernel (h : s.Sound) {kernel : RelationKernel M}
    (hkernel : kernel = s.kernel ∨ kernel.root.Sound ∧ s.root.Grows kernel.root ∧
      ∀ live : BufferStates, live.Under s.floor → Agrees live s →
        live.AgreesWith kernel.root.buffers) :
    Progress s { s with kernel := kernel } := by
  rcases hkernel with rfl | ⟨hroot, hgrows, hagrees⟩
  · exact .refl h
  · refine ⟨⟨hroot, fun tx htx => ?_⟩, rfl, hgrows, fun live hunder hlive => ?_⟩
    · obtain ⟨base, log, hbase, hrest⟩ := h.runs tx htx
      exact ⟨base, log, hbase.trans hgrows, hrest⟩
    · exact ⟨hagrees live hunder hlive, hlive.transactions⟩

/-- A catalogue change leaves the buffers alone. -/
theorem Sound.progress_published (h : s.Sound) {next : Root M} {commit : RootCommit}
    {result : RelationKernel M × Except KernelError RootCommit}
    (hnext : next.Sound ∧ s.root.Grows next) (hbuffers : next.buffers = s.root.buffers)
    (hpublished : RelationKernel.Published s.kernel.root.facts s.kernel next commit result) :
    Progress s { s with kernel := result.1 } := by
  obtain ⟨persistent, -, rfl⟩ := hpublished
  refine h.progress_kernel (.inr ⟨hnext.1, hnext.2, fun live _ hlive => ?_⟩)
  exact hbuffers ▸ hlive.root

theorem Sound.progress_act (h : s.Sound) (i : ℕ) (action : TransactionAction M) :
    Progress s (s.step (.act i action)) := by
  have hmem : ∀ tx ∈ s.transactions.modify i (fun tx => tx.act s.floor action),
      ∃ old ∈ s.transactions, tx = old ∨ tx = old.act s.floor action := by
    intro tx htx
    obtain ⟨j, hj⟩ := mem_iff_getElem?.mp htx
    rw [getElem?_modify, Option.map_eq_map, Option.map_eq_some_iff] at hj
    obtain ⟨old, hold, rfl⟩ := hj
    refine ⟨old, mem_of_getElem? hold, ?_⟩
    split
    · exact .inr rfl
    · exact .inl rfl
  refine ⟨⟨h.root, fun tx htx => ?_⟩, rfl, .refl _, fun live hunder hlive =>
    ⟨hlive.root, fun tx htx => ?_⟩⟩
  · obtain ⟨old, hold, rfl | rfl⟩ := hmem tx htx
    · exact h.runs tx hold
    obtain ⟨base, log, hbase, hrun, hbuffers, hsound⟩ := h.runs old hold
    obtain ⟨log', hrun'⟩ := RootTransaction.run_act s.floor hrun action
    obtain ⟨hsound', hbase'⟩ :=
      RootTransaction.sound_act s.floor hsound (BufferStates.agreesWith_self _)
        (fun _ _ => old.buffers.spares_base _) action
    exact ⟨base, log', hbase, hrun', hbase'.trans hbuffers, hbase'.symm ▸ hsound'⟩
  obtain ⟨old, hold, rfl | rfl⟩ := hmem tx htx
  · exact hlive.transactions tx hold
  · obtain ⟨hsound, hagrees⟩ := hlive.transactions old hold
    obtain ⟨hsound', hbase'⟩ := RootTransaction.sound_act s.floor hsound hagrees
      (fun id supply => BufferTransaction.spares_above (hunder.spares supply) _ id) action
    exact ⟨hsound', hbase' ▸ hagrees⟩

theorem Sound.progress_begin (h : s.Sound) : Progress s (s.step .begin) := by
  refine ⟨⟨h.root, fun tx htx => ?_⟩, rfl, .refl _, fun live _ hlive => ⟨hlive.root, fun tx htx => ?_⟩⟩
  · rcases mem_append.mp htx with hold | hnew
    · exact h.runs tx hold
    · obtain rfl := mem_singleton.mp hnew
      exact ⟨s.root, [], .refl _, .new, rfl, BufferTransaction.sound_new _ _⟩
  · rcases mem_append.mp htx with hold | hnew
    · exact hlive.transactions tx hold
    · obtain rfl := mem_singleton.mp hnew
      exact ⟨BufferTransaction.sound_new _ _, hlive.root⟩

theorem Sound.progress_eraseIdx (h : s.Sound) (i : ℕ) :
    Progress s { s with transactions := s.transactions.eraseIdx i } :=
  ⟨⟨h.root, fun tx htx => h.runs tx (mem_of_mem_eraseIdx htx)⟩, rfl, .refl _, fun _ _ hlive =>
    ⟨hlive.root, fun tx htx => hlive.transactions tx (mem_of_mem_eraseIdx htx)⟩⟩

theorem Sound.progress_commit (h : s.Sound) {tx : RootTransaction M} (htx : tx ∈ s.transactions)
    (settled : Except KernelError Unit) (supply : Supply) (persisted : Except String Unit) :
    Progress s { s with kernel := (s.kernel.commit settled (supply.atLeast s.floor) persisted tx).1
      } := by
  refine h.progress_kernel ?_
  rcases s.kernel.commit_cases settled (supply.atLeast s.floor) persisted tx with
    ⟨e, he⟩ | ⟨next, commit, hprepare, persistent, -, hresult⟩
  · exact .inl (congrArg Prod.fst he)
  · rw [hresult]
    obtain ⟨base, log, hbase, hrun, hbuffers, hsound⟩ := h.runs tx htx
    obtain ⟨hnext, hgrows⟩ := h.root.commit hbase hrun hbuffers hsound.alone hprepare
    refine .inr ⟨hnext, hgrows, fun live hunder hlive => ?_⟩
    obtain ⟨-, hmaterialize⟩ := RootTransaction.prepare_eq_ok hprepare
    exact (follows_materializeBuffers (hlive.transactions tx htx).1 (hunder.spares supply)
      (hbuffers ▸ hbase.buffers) hlive.root hmaterialize).2

/-- **Every step keeps the invariant.** -/
theorem Sound.progress_step (h : s.Sound) (action : RootAction M) : Progress s (s.step action) := by
  cases action with
  | createRelation metadata persisted =>
    rcases s.kernel.createRelation_cases metadata persisted with
      ⟨e, he⟩ | ⟨state, hstate, hfresh, -, -, hpublished⟩
    · exact h.progress_kernel (.inl (congrArg Prod.fst he))
    · exact h.progress_published (h.root.createRelation hstate hfresh) rfl hpublished
  | installRule rule source settled persisted =>
    simp only [RootSystem.step]
    cases hresult : s.kernel.installRule rule source settled persisted with
    | none => exact .refl h
    | some result =>
      rw [Option.elim_some]
      rcases s.kernel.installRule_cases rule source settled persisted hresult with
        ⟨e, he⟩ | ⟨definition, -, -, hfresh, -, -, hpublished⟩
      · exact h.progress_kernel (.inl (congrArg Prod.fst he))
      · exact h.progress_published (h.root.installRule hfresh) rfl hpublished
  | disableRule ruleId settled persisted =>
    rcases s.kernel.disableRule_cases ruleId settled persisted with
      ⟨e, he⟩ | ⟨rules, hrules, -, hpublished⟩
    · exact h.progress_kernel (.inl (congrArg Prod.fst he))
    · exact h.progress_published (h.root.disableRule hrules) rfl hpublished
  | begin => exact h.progress_begin
  | act i action => exact h.progress_act i action
  | commit i settled supply persisted =>
    simp only [RootSystem.step]
    cases htx : s.transactions[i]? with
    | none => exact .refl h
    | some tx =>
      have hcommit := h.progress_commit (mem_of_getElem? htx) settled supply persisted
      exact hcommit.trans (hcommit.sound.progress_eraseIdx i)

theorem sound_start : (start : RootSystem M).Sound :=
  ⟨⟨nofun, nofun, nodup_nil⟩, nofun⟩

theorem Sound.fork (h : s.Sound) : s.fork.Sound := ⟨h.root, nofun⟩

theorem le_foldr_max_init (n : ℕ) : ∀ l : List ℕ, n ≤ l.foldr max n
  | [] => le_rfl
  | _ :: l => (le_foldr_max_init n l).trans (le_max_right _ _)

theorem floor_le_fork (s : RootSystem M) : s.floor ≤ s.fork.floor := le_foldr_max_init _ _

theorem under_fork (s : RootSystem M) : s.root.buffers.Under s.fork.floor := fun id state h =>
  le_foldr_max _ (mem_map.mpr ⟨(id, state), get?_eq_some.mp h, rfl⟩)

/-- **What a staged commit publishes**: the root of the fork, and its difference to the live one. -/
structure StagedExactly (current staged next : Root M) (commit : RootCommit) : Prop where
  version : next.facts.version = current.facts.version + 1
  relations : next.facts.relations = staged.facts.relations
  rules : next.facts.rules = staged.facts.rules
  buffers : next.buffers = staged.buffers
  commits : next.facts.commits = current.facts.commits ++ [commit.facts]
  commit_version : commit.facts.version = next.facts.version
  changes : NetChanges current.facts.Holds next.facts.Holds commit.facts.changes
  catalogChanges : NetCatalog current.facts next.facts commit.facts.catalogChanges
  bufferChanges : NetBuffers current.buffers next.buffers commit.bufferChanges

/-- The staged commit of a fork. -/
theorem Progress.commitStaged (ht : t.Sound) (hfork : Progress t.fork f) (hlater : Progress t u)
    (settled : Except KernelError Unit) (persisted : Except String Unit) :
    (∃ e, u.kernel.commitStagedSnapshot t.root.facts.version f.root settled persisted =
        (u.kernel, .error e)) ∨
      u.root.facts.version = t.root.facts.version ∧ u.root = t.root ∧ ∃ kernel commit,
        u.kernel.commitStagedSnapshot t.root.facts.version f.root settled persisted =
          (kernel, .ok commit) ∧ StagedExactly u.root f.root kernel.root commit := by
  rcases u.kernel.commitStagedSnapshot_cases t.root.facts.version f.root settled persisted with
    hfail | ⟨hversion, bufferChanges, changes, hvalid, hbuffers, hchanges, persistent, -, hresult⟩
  · exact .inl hfail
  · have hroot : u.root = t.root := hlater.grows.eq hversion
    have hroot' : u.kernel.root = t.root := hroot
    refine .inr ⟨hversion, hroot, _, _, hresult, ?_⟩
    rw [hroot'] at hvalid hbuffers hchanges ⊢
    rw [hroot]
    obtain ⟨new, hnew, htouched⟩ := hfork.grows.commits
    rw [RelationKernel.commitsSince_eq hnew ht.root.commits_le htouched.newer] at hchanges
    have hagrees : t.root.buffers.AgreesWith f.root.buffers :=
      (hfork.agrees t.root.buffers t.under_fork ⟨t.root.buffers.agreesWith_self, nofun⟩).root
    have hnet := RelationKernel.stagedFactChanges_netChanges htouched.named hchanges
    have hcatalog := RelationKernel.stagedCatalogChanges_netCatalog ht.root.stored
      hfork.sound.root.stored ht.root.ruleIds hfork.sound.root.ruleIds hvalid
    exact {
      version := rfl
      relations := rfl
      rules := rfl
      buffers := rfl
      commits := rfl
      commit_version := rfl
      changes := hnet
      catalogChanges := { hcatalog with }
      bufferChanges := stagedChanges_spec hfork.grows.buffers hagrees hbuffers }

/-- **Every run keeps the invariant.** -/
theorem Runs.progress (h : Runs s t) : s.Sound → Progress s t := by
  induction h with
  | refl s => exact .refl
  | step _ action ih =>
    intro hs
    exact (ih hs).trans ((ih hs).sound.progress_step action)
  | @staged s t u f _ _ _ settled persisted ih ihfork ihlater =>
    intro hs
    have ht := ih hs
    have hfork := ihfork ht.sound.fork
    have hlater := ihlater ht.sound
    refine (ht.trans hlater).trans (hlater.sound.progress_kernel ?_)
    rcases Progress.commitStaged ht.sound hfork hlater settled persisted with
      ⟨e, he⟩ | ⟨-, hroot, kernel, commit, hresult, hexact⟩
    · exact .inl (congrArg Prod.fst he)
    · rw [hresult]
      have hmeta := hexact.catalogChanges.relations
      refine .inr ⟨?_, .of_commit hexact.version (hexact.commit_version.trans hexact.version)
        hexact.commits hmeta hexact.changes ?_ ?_, fun live hunder hlive => ?_⟩
      · refine hlater.sound.root.of_commit ?_ hexact.version
          (hexact.commit_version.trans hexact.version) hexact.commits ?_
        · intro relation state hstate
          rw [hexact.relations] at hstate
          exact hfork.sound.root.stored relation state hstate
        · rw [hexact.rules]
          exact hfork.sound.root.ruleIds
      · rw [hexact.rules, hroot]
        exact hfork.grows.rules
      · rw [hexact.buffers, hroot]
        exact hfork.grows.buffers
      · rw [hexact.buffers]
        refine (hfork.agrees live (fun id state hstate => ?_) ⟨?_, nofun⟩).root
        · exact (hunder id state hstate).trans (hlater.floor ▸ t.floor_le_fork)
        · exact hroot ▸ hlive.root

/-- **Staged publication is exact and atomic**: whatever a kernel and its fork have gone through, the
staged commit fails and leaves the kernel as it was, always if it has moved on, or it publishes the
next version with exactly what the fork holds and exactly the difference as its changes. -/
theorem staged_commit_exact (hkernel : Runs start t) (hfork : Runs t.fork f) (hlater : Runs t u)
    (settled : Except KernelError Unit) (persisted : Except String Unit) :
    ((∃ e, u.kernel.commitStagedSnapshot t.root.facts.version f.root settled persisted =
        (u.kernel, .error e)) ∨
      u.root.facts.version = t.root.facts.version ∧ ∃ kernel commit,
        u.kernel.commitStagedSnapshot t.root.facts.version f.root settled persisted =
          (kernel, .ok commit) ∧ StagedExactly u.root f.root kernel.root commit) ∧
    (u.root.facts.version ≠ t.root.facts.version →
      u.kernel.commitStagedSnapshot t.root.facts.version f.root settled persisted = (u.kernel,
        .error (.staleStagedSnapshot t.root.facts.version u.root.facts.version))) := by
  have ht := hkernel.progress sound_start
  refine ⟨?_, fun hmoved => ?_⟩
  · refine (Progress.commitStaged ht.sound (hfork.progress ht.sound.fork) (hlater.progress ht.sound)
      settled persisted).imp_right ?_
    rintro ⟨hversion, -, hpublished⟩
    exact ⟨hversion, hpublished⟩
  · unfold RelationKernel.commitStagedSnapshot
    exact if_pos hmoved

/-- A kernel with one relation. -/
def oneRelation : RootSystem Entries :=
  start.step (.createRelation (.new (.ofByte 1) ⟨0⟩ 1) (.ok ()))

/-- A fork of it, with a fact, a buffer and another relation. -/
def oneRelationForked : RootSystem Entries :=
  [RootAction.begin, .act 0 (.assert (.ofByte 1) [.bool true]),
    .act 0 (.createBuffer ⟨.ofByte 2, ⟨1⟩, .durable, .span⟩),
    .act 0 (.replaceBuffer (.ofByte 2) 0 0 ['a'] ⟨0, 0⟩),
    .commit 0 (.ok ()) ⟨0, 0⟩ (.ok ()),
    .createRelation (.new (.ofByte 3) ⟨2⟩ 1) (.ok ())].foldl step oneRelation.fork

theorem staged_commit_exact_oneRelation :
    ∃ kernel commit, oneRelation.kernel.commitStagedSnapshot oneRelation.root.facts.version
        oneRelationForked.root (.ok ()) (.ok ()) = (kernel, .ok commit) ∧
      commit.facts.changes.length = 1 ∧ commit.facts.catalogChanges.length = 1 ∧
      commit.bufferChanges.length = 1 ∧
      StagedExactly oneRelation.root oneRelationForked.root kernel.root commit := by
  have hfork : Runs oneRelation.fork oneRelationForked := (Runs.refl _).foldl _
  have hkernel : Runs start oneRelation := (Runs.refl start).step _
  have hexact := (staged_commit_exact hkernel hfork (.refl oneRelation) (.ok ()) (.ok ())).1
  have hresult : ((oneRelation.kernel.commitStagedSnapshot oneRelation.root.facts.version
      oneRelationForked.root (.ok ()) (.ok ())).2.toOption.map fun commit =>
        (commit.facts.changes.length, commit.facts.catalogChanges.length,
          commit.bufferChanges.length)) = some (1, 1, 1) := by
    decide +kernel
  rcases hexact with ⟨e, he⟩ | ⟨-, kernel, commit, hok, hexact⟩
  · rw [he] at hresult
    cases hresult
  · rw [hok] at hresult
    obtain ⟨hchanges, hrest⟩ := Prod.mk.inj (some.inj hresult)
    obtain ⟨hcatalog, hbuffers⟩ := Prod.mk.inj hrest
    exact ⟨kernel, commit, hok, hchanges, hcatalog, hbuffers, hexact⟩

end RootSystem

end Mica
