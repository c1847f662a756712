import Mica.Kernel.BufferMirror

/-!
# Kernel/Restart — what a run leaves in the log

Whatever a kernel goes through, its log keeps what a restart relies on (`RelationKernel.Logged`):
versions that grow, the installed rules, facts that can be persisted, and buffer changes whose
replay mirrors the live buffers.  Buffers and relations keep their ids and names apart (`Root.Tidy`).

* `RootSystem.Runs.logged` — over every run, forks included.
* `RelationKernel.loadFromCommitLog_spec` — what a root that is loaded from the log is.
-/

open SortedList List SortedMap
open Except (ok.inj)

namespace Mica

/-! ## Ids and names -/

/-- **Buffers and relations have different ids and names.** -/
def Root.Apart {M : Type → Type} [ByteMap M] (root : Root M) : Prop :=
  ∀ id state, root.buffers.get? id = some state → root.facts.relations.get? id = none ∧
    ∀ relation other, root.facts.relations.get? relation = some other →
      other.metadata.name ≠ state.metadata.name

/-- A root whose buffers have ids and names of their own. -/
structure Root.Tidy {M : Type → Type} [ByteMap M] (root : Root M) : Prop where
  buffers : root.buffers.Tidy
  apart : root.Apart

section Tidy

variable {M : Type → Type} [ByteMap M] {a b : Root M}

/-- Rules that change leave the ids and names alone. -/
theorem Root.Tidy.of_eq (h : a.Tidy) (hbuffers : b.buffers = a.buffers)
    (hrelations : b.facts.relations = a.facts.relations) : b.Tidy := by
  refine ⟨hbuffers ▸ h.buffers, fun id state hstate => ?_⟩
  rw [hrelations]
  exact h.apart id state (hbuffers ▸ hstate)

theorem Root.Tidy.createRelation (h : a.Tidy) {metadata : RelationMetadata} {state : RelationState M}
    (hempty : (RelationState.empty metadata : Except KernelError (RelationState M)) = .ok state)
    (hbuffer : a.buffers.get? metadata.id = none) (hname : a.buffers.named metadata.name = none) :
    (RelationKernel.catalogRoot (a.facts.relations.insert metadata.id state) a.facts.rules
      (.relationCreated metadata) a).Tidy := by
  refine ⟨h.buffers, fun id buffer hget => ?_⟩
  obtain ⟨hnone, hnames⟩ := h.apart id buffer hget
  have hid : id ≠ metadata.id := by
    rintro rfl
    cases hbuffer.symm.trans hget
  refine ⟨(get?_insert_of_ne hid).trans hnone, fun relation other hother => ?_⟩
  by_cases hrelation : relation = metadata.id
  · subst hrelation
    obtain rfl := Option.some.inj (get?_insert_self.symm.trans hother)
    rw [(RelationState.empty_spec hempty).1]
    exact (h.buffers.named.named_eq_none.mp hname id buffer hget).symm
  · exact hnames relation other ((get?_insert_of_ne hrelation).symm.trans hother)

/-- The metadata of the relations are those of another root. -/
theorem Root.Tidy.commit (h : a.Tidy) (hbuffers : b.buffers.Tidy)
    (hfollows : a.buffers.Follows b.buffers)
    (hnew : BufferStates.NewApart a.facts.relationMetadata a.buffers b.buffers)
    (hstored : a.facts.Stored)
    (hkept : ∀ relation other, b.facts.relations.get? relation = some other →
      ∃ old, a.facts.relations.get? relation = some old ∧ old.metadata = other.metadata) : b.Tidy := by
  refine ⟨hbuffers, fun id state hstate => ?_⟩
  have hold : a.facts.relations.get? id = none ∧
      ∀ relation old, a.facts.relations.get? relation = some old →
        old.metadata.name ≠ state.metadata.name := by
    cases hbefore : a.buffers.get? id with
    | some before =>
      obtain ⟨after, hafter, hlater⟩ := hfollows id before hbefore
      obtain rfl := Option.some.inj (hstate.symm.trans hafter)
      rw [hlater.metadata]
      exact h.apart id before hbefore
    | none =>
      have happart := hnew id state hstate hbefore
      have hmem : ∀ relation old, a.facts.relations.get? relation = some old →
          old.metadata ∈ a.facts.relationMetadata ∧ old.metadata.id = relation := by
        intro relation old hget
        have hid := (hstored relation old hget).2
        exact ⟨(RelationKernel.mem_relationMetadata hstored).mpr ⟨old, by rw [hid, hget], rfl⟩, hid⟩
      refine ⟨Option.eq_none_iff_forall_ne_some.mpr fun old hget => ?_, fun relation old hget => ?_⟩
      · obtain ⟨hin, hid⟩ := hmem id old hget
        exact (happart _ hin).1 hid
      · exact (happart _ (hmem relation old hget).1).2
  refine ⟨Option.eq_none_iff_forall_ne_some.mpr fun other hother => ?_,
    fun relation other hother => ?_⟩
  · obtain ⟨old, hget, -⟩ := hkept id other hother
    cases hold.1.symm.trans hget
  · obtain ⟨old, hget, hmeta⟩ := hkept relation other hother
    rw [← hmeta]
    exact hold.2 relation old hget

end Tidy

/-! ## The log -/

/-- The ids of the rules that are installed. -/
def installedIds (changes : List CatalogChange) : List Identity :=
  changes.filterMap fun
    | .ruleInstalled rule => some rule.id
    | _ => none

theorem installedIds_append (changes changes' : List CatalogChange) :
    installedIds (changes ++ changes') = installedIds changes ++ installedIds changes' :=
  filterMap_append

namespace BufferStates

/-- The buffer changes of a log. -/
def replayLog (supply : Supply) : BufferStates → List RootCommit → Except KernelError BufferStates
  | states, [] => .ok states
  | states, commit :: log =>
    match states.replayAll supply commit.bufferChanges with
    | .error e => .error e
    | .ok states => replayLog supply states log

theorem replayLog_concat {supply : Supply} {commit : RootCommit} {states' states'' : BufferStates}
    (hlast : states'.replayAll supply commit.bufferChanges = .ok states'') :
    ∀ {log : List RootCommit} {states : BufferStates}, states.replayLog supply log = .ok states' →
      states.replayLog supply (log ++ [commit]) = .ok states''
  | [], states, h => by
    obtain rfl := ok.inj h
    rw [nil_append]
    unfold replayLog
    rw [hlast]
    rfl
  | first :: log, states, h => by
    rw [cons_append]
    unfold replayLog at h ⊢
    split at h
    · cases h
    exact replayLog_concat hlast h

theorem Same.replayLog {supply : Supply} (supply' : Supply) : ∀ {log : List RootCommit}
    {a b a' : BufferStates}, Same a b → a.replayLog supply log = .ok a' →
      ∃ b', b.replayLog supply' log = .ok b' ∧ Same a' b'
  | [], a, b, a', h, hreplay => by
    obtain rfl := ok.inj hreplay
    exact ⟨b, rfl, h⟩
  | commit :: log, a, b, a', h, hreplay => by
    unfold BufferStates.replayLog at hreplay ⊢
    split at hreplay
    · cases hreplay
    rename_i a₁ hfirst
    obtain ⟨b₁, hfirst', hsame⟩ := h.replayAll supply' hfirst
    rw [hfirst']
    exact Same.replayLog supply' hsame hreplay

end BufferStates

namespace RelationKernel

variable {M : Type → Type} [ByteMap M] {kernel : RelationKernel M}

/-- **What a restart relies on.** -/
structure Logged (kernel : RelationKernel M) : Prop where
  versions : (kernel.log.map fun commit => commit.facts.version).Pairwise (· < ·)
  le : ∀ commit ∈ kernel.log, commit.facts.version ≤ kernel.root.facts.version
  ruleIds : (kernel.root.facts.rules.map RuleDefinition.id).Perm
    (kernel.log.flatMap fun commit => installedIds commit.facts.catalogChanges)
  persistable : ∀ commit ∈ kernel.log, ∀ change ∈ commit.facts.changes, change.kind = .assert →
    ∀ v ∈ change.tuple, v.isPersistable = true
  distinct : ∀ commit ∈ kernel.log, (commit.bufferChanges.map fun change => change.metadata.id).Nodup
  buffers : ∀ supply, ∃ replayed, BufferStates.empty.replayLog supply kernel.log = .ok replayed ∧
    replayed.Mirrors kernel.root.buffers ∧ replayed.Named

theorem logged_new : (new : RelationKernel M).Logged where
  versions := .nil
  le := nofun
  ruleIds := .nil
  persistable := nofun
  distinct := nofun
  buffers _ := ⟨BufferStates.empty, rfl, fun _ => .none, BufferStates.named_empty⟩

/-- What is left of a commit for the provider. -/
theorem persistentCommit_cases {snapshot : Snapshot M} {commit : RootCommit}
    {persistent : Option RootCommit} (h : persistentCommit snapshot commit = .ok persistent) :
    (persistent = none ∧ commit.facts.catalogChanges = [] ∧ commit.bufferChanges = [] ∧
      commit.facts.changes.filter (fun c => isDurable snapshot c.relation) = []) ∨
    persistent = some ⟨⟨commit.facts.version, commit.facts.catalogChanges,
      commit.facts.changes.filter fun c => isDurable snapshot c.relation⟩,
      commit.bufferChanges.map persistentBufferChange⟩ := by
  unfold persistentCommit at h
  split at h
  · cases h
  dsimp only at h
  split at h
  · next hnone =>
    simp only [Bool.and_eq_true, List.isEmpty_iff, map_eq_nil_iff] at hnone
    exact Or.inl ⟨(ok.inj h).symm, hnone.1.1, hnone.2, hnone.1.2⟩
  · exact Or.inr (ok.inj h).symm

/-- **A commit that is published is logged**, as far as it is persisted. -/
theorem Logged.published (h : kernel.Logged) {snapshot : Snapshot M} {next : Root M}
    {commit : RootCommit}
    {result : RelationKernel M × Except KernelError RootCommit}
    (hpublished : Published snapshot kernel next commit result)
    (hcommit : commit.facts.version = kernel.root.facts.version + 1)
    (hversion : next.facts.version = kernel.root.facts.version + 1)
    (hrules : (next.facts.rules.map RuleDefinition.id).Perm
      (kernel.root.facts.rules.map RuleDefinition.id ++ installedIds commit.facts.catalogChanges))
    (hpersistable : ∀ change ∈ commit.facts.changes, change.kind = .assert →
      ∀ v ∈ change.tuple, v.isPersistable = true)
    (hdistinct : (commit.bufferChanges.map fun change => change.metadata.id).Nodup)
    (hmoves : kernel.root.buffers.Moves commit.bufferChanges next.buffers) : result.1.Logged := by
  obtain ⟨persistent, hpersistent, rfl⟩ := hpublished
  have hbuffers : ∀ supply, ∃ replayed replayed',
      BufferStates.empty.replayLog supply kernel.log = .ok replayed ∧
      replayed.replayAll supply (commit.bufferChanges.map persistentBufferChange) = .ok replayed' ∧
      replayed'.Mirrors next.buffers ∧ replayed'.Named := by
    intro supply
    obtain ⟨replayed, hlog, hmirrors, hnamed⟩ := h.buffers supply
    obtain ⟨replayed', hrest⟩ := hmoves.mirrors supply hmirrors hnamed
    exact ⟨replayed, replayed', hlog, hrest⟩
  rcases persistentCommit_cases hpersistent with ⟨rfl, hcatalog, hnobuffers, -⟩ | rfl
  · -- nothing is left: the log stays as it is, and so does the mirror
    rw [hcatalog] at hrules
    refine ⟨?_, fun c hc => ?_, ?_, ?_, ?_, fun supply => ?_⟩
    · simpa using h.versions
    · have hle := h.le c (by simpa using hc)
      change c.facts.version ≤ next.facts.version
      omega
    · simpa [installedIds] using hrules.trans (by simpa [installedIds] using h.ruleIds)
    · simpa using h.persistable
    · simpa using h.distinct
    · obtain ⟨replayed, replayed', hlog, hlast, hrest⟩ := hbuffers supply
      rw [hnobuffers] at hlast
      obtain rfl := ok.inj hlast
      exact ⟨replayed, by simpa using hlog, hrest⟩
  · refine ⟨?_, fun c hc => ?_, ?_, fun c hc => ?_, fun c hc => ?_, fun supply => ?_⟩
    · rw [Option.toList_some, map_append, map_singleton]
      refine pairwise_append.mpr ⟨h.versions, pairwise_singleton _ _, fun v hv w hw => ?_⟩
      obtain ⟨c, hc, rfl⟩ := mem_map.mp hv
      rw [mem_singleton.mp hw]
      exact (h.le c hc).trans_lt (by rw [hcommit]; exact Nat.lt_succ_self _)
    · change c.facts.version ≤ next.facts.version
      rcases mem_append.mp hc with hold | hnew
      · exact (h.le c hold).trans (by omega)
      · rw [Option.toList_some, mem_singleton] at hnew
        rw [hnew]
        exact (hcommit.trans hversion.symm).le
    · change (next.facts.rules.map RuleDefinition.id).Perm _
      rw [Option.toList_some, flatMap_append, flatMap_singleton]
      exact hrules.trans (h.ruleIds.append_right _)
    · rcases mem_append.mp hc with hold | hnew
      · exact h.persistable c hold
      · rw [Option.toList_some, mem_singleton] at hnew
        rw [hnew]
        exact fun change hchange => hpersistable change (mem_of_mem_filter hchange)
    · rcases mem_append.mp hc with hold | hnew
      · exact h.distinct c hold
      · rw [Option.toList_some, mem_singleton] at hnew
        rw [hnew, map_map]
        refine (map_congr_left fun change _ => ?_ : _ = _) ▸ hdistinct
        exact congrArg BufferMetadata.id (BufferStates.persistentBufferChange_fields change).1.symm
    · obtain ⟨replayed, replayed', hlog, hlast, hrest⟩ := hbuffers supply
      exact ⟨replayed', BufferStates.replayLog_concat hlast hlog, hrest⟩

theorem forall₂_kept_ids : ∀ {a b : List RuleDefinition}, List.Forall₂ RuleDefinition.Kept a b →
    b.map RuleDefinition.id = a.map RuleDefinition.id
  | _, _, .nil => rfl
  | _, _, .cons h hrest => by rw [map_cons, map_cons, h.id, forall₂_kept_ids hrest]

/-- The rules that a staged snapshot installs are those that are new. -/
theorem perm_staged_ids {current staged : Snapshot M} (hgrow : RulesGrow current.rules staged.rules)
    (hids : (staged.rules.map RuleDefinition.id).Nodup) :
    (staged.rules.map RuleDefinition.id).Perm
      (current.rules.map RuleDefinition.id ++ installedIds (stagedCatalogChanges current staged)) := by
  obtain ⟨old, new, hsplit, hkept⟩ := hgrow
  have hold := forall₂_kept_ids hkept
  rw [hsplit, map_append, hold] at hids
  have hdisjoint := (nodup_append.mp hids).2.2
  have hnone : ∀ rule ∈ old, ∀ change, stagedRuleChange current.rules rule = some change →
      ∀ installed, change ≠ .ruleInstalled installed := by
    rintro rule hrule change hchange installed rfl
    unfold stagedRuleChange at hchange
    split at hchange
    · next hfree =>
      have hmem : rule.id ∈ current.rules.map RuleDefinition.id := hold ▸ mem_map_of_mem hrule
      obtain ⟨other, hother, hid⟩ := mem_map.mp hmem
      exact ruleOf_eq_none.mp hfree other hother hid
    · split at hchange
      · cases hchange
      cases hchange
  have hsome : ∀ rule ∈ new, stagedRuleChange current.rules rule = some (.ruleInstalled rule) := by
    intro rule hrule
    unfold stagedRuleChange
    rw [ruleOf_eq_none.mpr fun other hother hid =>
      hdisjoint _ (mem_map_of_mem hother) _ (mem_map_of_mem hrule) hid]
  have hinstalled : installedIds (stagedCatalogChanges current staged) =
    new.map RuleDefinition.id := by
    have hcreated : ∀ created : List RelationMetadata,
        installedIds (created.map CatalogChange.relationCreated) = [] := by
      intro created
      unfold installedIds
      rw [filterMap_map]
      exact filterMap_eq_nil_iff.mpr fun _ _ => rfl
    have hkeep : installedIds (old.filterMap (stagedRuleChange current.rules)) = [] := by
      unfold installedIds
      rw [filterMap_filterMap]
      refine filterMap_eq_nil_iff.mpr fun rule hrule => ?_
      rcases hchange : stagedRuleChange current.rules rule with _ | change
      · rfl
      cases change with
      | ruleInstalled installed => exact absurd rfl (hnone rule hrule _ hchange installed)
      | relationCreated _ => rfl
      | ruleDisabled _ => rfl
    have hinstall : installedIds (new.filterMap (stagedRuleChange current.rules)) =
        new.map RuleDefinition.id := by
      unfold installedIds
      rw [filterMap_filterMap, ← filterMap_eq_map]
      refine filterMap_congr fun rule hrule => ?_
      rw [hsome rule hrule]
      rfl
    unfold stagedCatalogChanges
    rw [hsplit, filterMap_append, installedIds_append, installedIds_append, hcreated, hkeep, hinstall,
      nil_append, nil_append]
  rw [hinstalled, hsplit, map_append, hold]

end RelationKernel

/-! ## Runs -/

namespace RootSystem

variable {M : Type → Type} [ByteMap M] {s t u f : RootSystem M}

/-- **What a step leaves behind**: a tidy root, and a log for a restart. -/
structure Leaves (s t : RootSystem M) : Prop where
  tidy : t.root.Tidy
  logged : s.kernel.Logged → t.kernel.Logged

theorem Leaves.refl (h : s.root.Tidy) : Leaves s s := ⟨h, fun hlog => hlog⟩

theorem leaves_published {change : CatalogChange} {relations : SortedMap RelationId (RelationState M)}
    {rules : List RuleDefinition} {result : RelationKernel M × Except KernelError RootCommit}
    (hpublished : RelationKernel.Published s.kernel.root.facts s.kernel
      (RelationKernel.catalogRoot relations rules change s.kernel.root)
      (RelationKernel.catalogCommit change s.kernel.root) result)
    (htidy : (RelationKernel.catalogRoot relations rules change s.kernel.root).Tidy)
    (hrules : rules.map RuleDefinition.id =
      s.kernel.root.facts.rules.map RuleDefinition.id ++ installedIds [change]) :
    Leaves s { s with kernel := result.1 } := by
  refine ⟨?_, fun hlog => hlog.published hpublished rfl rfl (.of_eq hrules) nofun .nil .refl⟩
  obtain ⟨persistent, -, rfl⟩ := hpublished
  exact htidy

/-- The asserts of a commit can be persisted. -/
theorem persistable_of_net {before : RelationId → Tuple → Prop} {next : Snapshot M}
    {changes : List FactChange} (hnet : NetChanges before next.Holds changes) (hstored : next.Stored) :
    ∀ change ∈ changes, change.kind = .assert → ∀ v ∈ change.tuple, v.isPersistable = true := by
  rintro ⟨relation, t, kind⟩ hchange rfl
  obtain ⟨-, state, hstate, ht⟩ := (hnet.assert_iff relation t).mp hchange
  exact (RelationMetadata.validateTuple_eq_ok.mp
    ((hstored relation state hstate).1.validateTuple t ht)).2

theorem Sound.leaves_commit (h : s.Sound) (htidy : s.root.Tidy) {tx : RootTransaction M}
    (htx : tx ∈ s.transactions) (settled : Except KernelError Unit) (supply : Supply)
    (persisted : Except String Unit) :
    Leaves s { s with kernel := (s.kernel.commit settled supply persisted tx).1 } := by
  rcases s.kernel.commit_cases settled supply persisted tx with
    ⟨e, he⟩ | ⟨next, commit, hprepare, hpublished⟩
  · rw [he]
    exact .refl htidy
  · obtain ⟨base, log, hbase, hrun, hbuffers, hsound⟩ := h.runs tx htx
    obtain ⟨hnext, hgrows⟩ := h.root.commit hbase hrun hbuffers hsound.alone hprepare
    obtain ⟨hfacts, hmaterialize⟩ := RootTransaction.prepare_eq_ok hprepare
    obtain ⟨hmoves, hbuffersTidy, hnew⟩ :=
      moves_materializeBuffers hsound (hbuffers ▸ hbase.buffers) htidy.buffers hmaterialize
    have hnet := Transaction.prepare_netChanges hrun.tracks h.root.stored hbase.follows hfacts
    obtain ⟨hrows, hnone⟩ := Transaction.prepare_rows hrun.tracks h.root.stored hbase.follows hfacts
    obtain ⟨-, relations, changes, -, hcommit, hnextFacts⟩ := Transaction.prepare_eq_ok hfacts
    refine ⟨?_, fun hlog => hlog.published hpublished ?_ ?_ ?_ (persistable_of_net hnet hnext.stored)
      (nodup_materializeBuffers hsound hmaterialize) hmoves⟩
    · obtain ⟨persistent, -, hresult⟩ := hpublished
      rw [hresult]
      refine htidy.commit hbuffersTidy hgrows.buffers hnew h.root.stored
        fun relation other hother => ?_
      rcases hold : s.root.facts.relations.get? relation with _ | old
      · cases (hnone relation hold).symm.trans hother
      obtain ⟨state, hstate, -, hmeta, -⟩ := hrows relation old hold
      obtain rfl := Option.some.inj (hother.symm.trans hstate)
      exact ⟨old, rfl, hmeta.symm⟩
    · rw [hcommit]
    · rw [hnextFacts]
    · rw [hcommit, hnextFacts]
      simp [installedIds]

theorem Sound.leaves_step (h : s.Sound) (htidy : s.root.Tidy) (action : RootAction M) :
    Leaves s (s.step action) := by
  cases action with
  | createRelation metadata persisted =>
    rcases s.kernel.createRelation_cases metadata persisted with
      ⟨e, he⟩ | ⟨state, hstate, -, hbuffer, hname, hpublished⟩
    · simp only [RootSystem.step, he]
      exact .refl htidy
    · exact leaves_published hpublished (htidy.createRelation hstate hbuffer hname)
        (append_nil _).symm
  | installRule rule source settled persisted =>
    simp only [RootSystem.step]
    rcases hresult : s.kernel.installRule rule source settled persisted with _ | result
    · exact .refl htidy
    rw [Option.elim_some]
    rcases s.kernel.installRule_cases rule source settled persisted hresult with
      ⟨e, rfl⟩ | ⟨definition, -, -, -, -, -, hpublished⟩
    · exact .refl htidy
    · refine leaves_published hpublished (Root.Tidy.of_eq htidy rfl rfl) ?_
      rw [map_append]
      rfl
  | disableRule ruleId settled persisted =>
    rcases s.kernel.disableRule_cases ruleId settled persisted with
      ⟨e, he⟩ | ⟨rules, hrules, -, hpublished⟩
    · simp only [RootSystem.step, he]
      exact .refl htidy
    · refine leaves_published hpublished (Root.Tidy.of_eq htidy rfl rfl) ?_
      rw [(RulesGrow.disable hrules).2]
      exact (append_nil _).symm
  | begin => exact ⟨htidy, fun hlog => hlog⟩
  | act i action => exact ⟨htidy, fun hlog => hlog⟩
  | commit i settled supply persisted =>
    simp only [RootSystem.step]
    rcases htx : s.transactions[i]? with _ | tx
    · exact .refl htidy
    have hcommit := h.leaves_commit htidy (mem_of_getElem? htx) settled (supply.atLeast s.floor)
      persisted
    exact ⟨hcommit.tidy, hcommit.logged⟩

/-- **Every run leaves a tidy root, and a log for a restart.** -/
theorem Runs.leaves (h : Runs s t) : s.Sound → s.root.Tidy → Leaves s t := by
  induction h with
  | refl s => exact fun _ htidy => .refl htidy
  | @step s t hruns action ih =>
    intro hs htidy
    have ht := ih hs htidy
    have hstep := (hruns.progress hs).sound.leaves_step ht.tidy action
    exact ⟨hstep.tidy, fun hlog => hstep.logged (ht.logged hlog)⟩
  | @staged s t u f hruns hfork hlater settled persisted ih ihfork ihlater =>
    intro hs htidy
    have ht := ih hs htidy
    have htp := hruns.progress hs
    have hf := ihfork htp.sound.fork ht.tidy
    have hu := ihlater htp.sound ht.tidy
    have hfp := hfork.progress htp.sound.fork
    have hup := hlater.progress htp.sound
    have hall : s.kernel.Logged → u.kernel.Logged := fun hlog => hu.logged (ht.logged hlog)
    rcases u.kernel.commitStagedSnapshot_cases t.root.facts.version f.root settled persisted with
      ⟨e, he⟩ | ⟨hversion, bufferChanges, changes, hvalid, hbuffers, hchanges, hpublished⟩
    · unfold commitStaged
      rw [he]
      exact ⟨hu.tidy, hall⟩
    · have hroot : u.kernel.root = t.root := hup.grows.eq hversion
      rcases Progress.commitStaged htp.sound hfp hup settled persisted with
        ⟨e, he⟩ | ⟨-, -, kernel, commit, hresult, hexact⟩
      · obtain ⟨persistent, -, hok⟩ := hpublished
        cases (congrArg Prod.snd he).symm.trans (congrArg Prod.snd hok)
      · have hagrees : t.root.buffers.AgreesWith f.root.buffers :=
          (hfp.agrees t.root.buffers t.under_fork ⟨t.root.buffers.agreesWith_self, nofun⟩).root
        obtain ⟨persistent, -, hok⟩ := id hpublished
        obtain rfl := ok.inj (congrArg Prod.snd (hresult.symm.trans hok))
        refine ⟨?_, fun hlog => ?_⟩
        · unfold commitStaged
          rw [hok]
          exact hf.tidy.of_eq rfl rfl
        refine (hall hlog).published hpublished rfl rfl ?_ ?_ ?_ ?_
        · rw [hroot]
          exact RelationKernel.perm_staged_ids hfp.grows.rules hfp.sound.root.ruleIds
        · refine persistable_of_net hexact.changes fun relation state hstate => ?_
          rw [hexact.relations] at hstate
          exact hfp.sound.root.stored relation state hstate
        · exact pairwise_map.mpr (hexact.bufferChanges.ordered.imp ne_of_lt)
        · rw [hroot] at hbuffers ⊢
          exact BufferStates.moves_staged hfp.grows.buffers hagrees hf.tidy.buffers hbuffers

theorem tidy_start : (start : RootSystem M).root.Tidy := ⟨BufferStates.tidy_empty, nofun⟩

end RootSystem

/-! ## Loading -/

namespace Replayed

variable {M : Type → Type} [ByteMap M] {r r' : Replayed M}

/-- The relations hold facts that were checked, each under its own id. -/
def Stored (r : Replayed M) : Prop :=
  ∀ relation state, r.relations.get? relation = some state → state.Stored ∧
    state.metadata.id = relation

theorem Stored.insert (h : r.Stored) {relation : RelationId} {state : RelationState M}
    (hstate : state.Stored ∧ state.metadata.id = relation) :
    Stored { r with relations := r.relations.insert relation state } := by
  intro relation' state' hget
  dsimp only at hget
  rw [get?_insert] at hget
  split at hget
  · next heq =>
    rwa [heq, ← Option.some.inj hget]
  · exact h relation' state' hget

theorem catalogChange_spec {change : CatalogChange} (h : r.catalogChange change = .ok r') :
    r'.buffers = r.buffers ∧
      r'.rules.map RuleDefinition.id = r.rules.map RuleDefinition.id ++ installedIds [change] ∧
      (r.Stored → r'.Stored) := by
  cases change with
  | relationCreated metadata =>
    simp only [catalogChange] at h
    split at h
    · cases h
    rename_i state hstate
    obtain rfl := ok.inj h
    refine ⟨rfl, (append_nil _).symm, fun hstored => hstored.insert ⟨.empty hstate, ?_⟩⟩
    rw [(RelationState.empty_spec hstate).1]
  | ruleInstalled rule =>
    simp only [catalogChange] at h
    split at h
    · cases h
    split at h
    · cases h
    obtain rfl := ok.inj h
    exact ⟨rfl, map_append, fun hstored => hstored⟩
  | ruleDisabled ruleId =>
    simp only [catalogChange] at h
    split at h
    · cases h
    rename_i rules hrules
    obtain rfl := ok.inj h
    refine ⟨rfl, ?_, fun hstored => hstored⟩
    rw [(RulesGrow.disable hrules).2]
    exact (append_nil _).symm

theorem catalogChanges_spec : ∀ {changes : List CatalogChange} {r r' : Replayed M},
    r.catalogChanges changes = .ok r' → r'.buffers = r.buffers ∧
      r'.rules.map RuleDefinition.id = r.rules.map RuleDefinition.id ++ installedIds changes ∧
      (r.Stored → r'.Stored)
  | [], r, r', h => by
    obtain rfl := ok.inj h
    exact ⟨rfl, (append_nil _).symm, fun hstored => hstored⟩
  | change :: changes, r, r', h => by
    unfold catalogChanges at h
    split at h
    · cases h
    rename_i r₁ hchange
    obtain ⟨hbuffers, hids, hstored⟩ := catalogChange_spec hchange
    obtain ⟨hbuffers', hids', hstored'⟩ := catalogChanges_spec h
    refine ⟨hbuffers'.trans hbuffers, ?_, fun hr => hstored' (hstored hr)⟩
    rw [hids', hids, append_assoc, ← installedIds_append, singleton_append]

theorem factChange_spec {change : FactChange} (h : r.factChange change = .ok r') :
    r'.buffers = r.buffers ∧ r'.rules = r.rules ∧
      ((change.kind = .assert → ∀ v ∈ change.tuple, v.isPersistable = true) → r.Stored →
        r'.Stored) := by
  unfold factChange at h
  split at h
  · cases h
  rename_i state hstate
  split at h
  · obtain rfl := ok.inj h
    exact ⟨rfl, rfl, fun _ hr => hr⟩
  split at h
  · cases h
  rename_i harity
  obtain rfl := ok.inj h
  refine ⟨rfl, rfl, fun hvalid hr => hr.insert ?_⟩
  obtain ⟨hstored, hid⟩ := hr change.relation state hstate
  cases hkind : change.kind with
  | assert =>
    refine ⟨.insert hstored (RelationMetadata.validateTuple_eq_ok.mpr ?_), ?_⟩
    · exact ⟨(not_not.mp harity).symm, hvalid hkind⟩
    · rw [RelationState.insert_metadata, hid]
  | retract =>
    refine ⟨.remove hstored, ?_⟩
    rw [RelationState.remove_metadata, hid]

theorem factChanges_spec : ∀ {changes : List FactChange} {r r' : Replayed M},
    r.factChanges changes = .ok r' → r'.buffers = r.buffers ∧ r'.rules = r.rules ∧
      ((∀ change ∈ changes, change.kind = .assert → ∀ v ∈ change.tuple, v.isPersistable = true) →
        r.Stored → r'.Stored)
  | [], r, r', h => by
    obtain rfl := ok.inj h
    exact ⟨rfl, rfl, fun _ hr => hr⟩
  | change :: changes, r, r', h => by
    unfold factChanges at h
    split at h
    · cases h
    rename_i r₁ hchange
    obtain ⟨hbuffers, hrules, hstored⟩ := factChange_spec hchange
    obtain ⟨hbuffers', hrules', hstored'⟩ := factChanges_spec h
    refine ⟨hbuffers'.trans hbuffers, hrules'.trans hrules, fun hvalid hr => ?_⟩
    obtain ⟨hfirst, hrest⟩ := forall_mem_cons.mp hvalid
    exact hstored' hrest (hstored hfirst hr)

/-- **What the replay of a log comes to**: the replayed buffers, the installed rules, and facts that
were checked. -/
theorem commits_spec {supply : Supply} : ∀ {log : List RootCommit} {r r' : Replayed M},
    r.commits supply log = .ok r' → r.buffers.replayLog supply log = .ok r'.buffers ∧
      r'.rules.map RuleDefinition.id = r.rules.map RuleDefinition.id ++
        log.flatMap (fun commit => installedIds commit.facts.catalogChanges) ∧
      ((∀ commit ∈ log, ∀ change ∈ commit.facts.changes, change.kind = .assert →
        ∀ v ∈ change.tuple, v.isPersistable = true) → r.Stored → r'.Stored)
  | [], r, r', h => by
    obtain rfl := ok.inj h
    exact ⟨rfl, (append_nil _).symm, fun _ hr => hr⟩
  | commit :: log, r, r', h => by
    unfold commits at h
    split at h
    · cases h
    rename_i r₁ hcommit
    unfold Replayed.commit at hcommit
    split at hcommit
    · cases hcommit
    rename_i buffers hreplay
    split at hcommit
    · cases hcommit
    rename_i r₂ hcatalog
    obtain ⟨hbuffers, hids, hstored⟩ := catalogChanges_spec hcatalog
    obtain ⟨hbuffers', hrules', hstored'⟩ := factChanges_spec hcommit
    obtain ⟨hlog, hids'', hstored''⟩ := commits_spec h
    refine ⟨?_, ?_, fun hvalid hr => ?_⟩
    · unfold BufferStates.replayLog
      rw [hreplay]
      rwa [hbuffers', hbuffers] at hlog
    · rw [hids'', hrules', hids, flatMap_cons, append_assoc]
    · obtain ⟨hfirst, hrest⟩ := forall_mem_cons.mp hvalid
      exact hstored'' hrest (hstored' hfirst (hstored hr))

end Replayed

namespace BufferStates

variable {M : Type → Type} [ByteMap M]

/-- What the check of the catalogue says. -/
theorem validateCatalog_eq_ok {states : BufferStates}
    {relations : SortedMap RelationId (RelationState M)}
    (h : states.validateCatalog relations = .ok ()) :
    ∀ id state, states.get? id = some state → relations.get? id = none ∧
      ∀ relation other, relations.get? relation = some other →
        other.metadata.name ≠ state.metadata.name := by
  intro id state hstate
  unfold validateCatalog at h
  split at h
  · cases h
  rename_i hnone
  have hentry := find?_eq_none.mp hnone (id, state) (get?_eq_some.mp hstate)
  simp only [Bool.or_eq_true, not_or, Bool.not_eq_true, Option.isSome_eq_false_iff,
    Option.isNone_iff_eq_none, any_eq_false, decide_eq_true_eq] at hentry
  rw [states.keyed id state hstate] at hentry
  refine ⟨hentry.1, fun relation other hother => ?_⟩
  exact hentry.2 (relation, other) (get?_eq_some.mp hother)

end BufferStates

namespace RelationKernel

variable {M : Type → Type} [ByteMap M] {kernel : RelationKernel M} {root : Root M} {supply : Supply}

theorem le_lastVersion : ∀ {log : List RootCommit},
    (log.map fun commit => commit.facts.version).Pairwise (· < ·) →
      ∀ commit ∈ log, commit.facts.version ≤ lastVersion log := by
  intro log hversions commit hcommit
  obtain rfl | ⟨log, last, rfl⟩ := log.eq_nil_or_concat
  · cases hcommit
  rw [concat_eq_append] at hversions hcommit ⊢
  have hlast : lastVersion (log ++ [last]) = last.facts.version := by
    unfold lastVersion
    rw [getLast?_concat]
    rfl
  rw [hlast]
  rcases mem_append.mp hcommit with hold | hnew
  · rw [map_append] at hversions
    exact ((pairwise_append.mp hversions).2.2 _ (mem_map_of_mem hold) _
      (mem_map_of_mem (mem_singleton_self _))).le
  · rw [mem_singleton.mp hnew]

/-- **What a restart makes of a kernel**: a sound root whose buffers follow those before. -/
structure Restarted (kernel : RelationKernel M) (root : Root M) : Prop where
  sound : root.Sound
  tidy : root.Tidy
  follows : kernel.root.buffers.Follows root.buffers
  logged : (⟨root, kernel.log⟩ : RelationKernel M).Logged

/-- The restored buffers, with facts and rules that fit the log. -/
theorem Logged.restarted (h : kernel.Logged) {replayed : BufferStates} {supply₁ : Supply}
    (hreplayed : BufferStates.empty.replayLog supply₁ kernel.log = .ok replayed)
    (hrestore : BufferStates.restore supply replayed.persisted = .ok root.buffers)
    (hsound : root.Sound)
    (hversion : root.facts.version = lastVersion kernel.log)
    (hrules : (root.facts.rules.map RuleDefinition.id).Perm
      (kernel.log.flatMap fun commit => installedIds commit.facts.catalogChanges))
    (hapart : root.Apart) : Restarted kernel root := by
  obtain ⟨replayed', hreplayed', hmirrors, -⟩ := h.buffers supply₁
  obtain rfl := ok.inj (hreplayed.symm.trans hreplayed')
  obtain ⟨hmirrors', hfollows, htidy⟩ := hmirrors.restore hrestore
  refine ⟨hsound, ⟨htidy, hapart⟩, hfollows, h.versions, fun commit hcommit => ?_, hrules,
    h.persistable,
    h.distinct, fun supply' => ?_⟩
  · rw [hversion]
    exact le_lastVersion h.versions commit hcommit
  · obtain ⟨other, hother, hsame⟩ :=
      (BufferStates.Same.refl BufferStates.named_empty).replayLog supply' hreplayed
    exact ⟨other, hother, hsame.mirrors hmirrors', hsame.right⟩

/-- **What a root that is loaded from the log is.** -/
theorem Logged.loadFromCommitLog (h : kernel.Logged)
    (hnodup : (kernel.root.facts.rules.map RuleDefinition.id).Nodup)
    (hload : loadFromCommitLog supply kernel.log = .ok root) : Restarted kernel root := by
  unfold RelationKernel.loadFromCommitLog at hload
  split at hload
  · cases hload
  rename_i r hcommits
  split at hload
  · cases hload
  rename_i hcatalog
  split at hload
  · cases hload
  rename_i buffers hrestore
  obtain rfl := ok.inj hload
  obtain ⟨hlog, hids, hstored⟩ := Replayed.commits_spec hcommits
  have hids' : r.rules.map RuleDefinition.id =
      kernel.log.flatMap fun commit => installedIds commit.facts.catalogChanges := hids
  obtain ⟨replayed, hreplayed, hmirrors, -⟩ := h.buffers supply
  obtain rfl := ok.inj (hlog.symm.trans hreplayed)
  obtain ⟨hmirrors', -, -⟩ := hmirrors.restore hrestore
  refine h.restarted hlog hrestore ⟨hstored h.persistable nofun, fun commit hcommit => ?_, ?_⟩ rfl
    (.of_eq hids') fun id state hstate => ?_
  · obtain ⟨logged, hmem, rfl⟩ := mem_map.mp hcommit
    exact le_lastVersion h.versions logged hmem
  · change (r.rules.map RuleDefinition.id).Nodup
    rw [hids']
    exact h.ruleIds.nodup hnodup
  · -- the catalogue was checked before the buffers were restored
    obtain ⟨p, hp, hpl⟩ := hmirrors'.of_live hstate
    rw [hpl.metadata]
    exact BufferStates.validateCatalog_eq_ok hcatalog id p hp

end RelationKernel

end Mica
