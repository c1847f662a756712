import Mica.Buffer.Convergence
import Mica.Buffer.Rebase
import Mica.Kernel.Staged

/-!
# Kernel/Lineage — where the texts of a run come from

The buffers of a run are later and later states (`RootSystem.Runs.ordered`).  As long as a buffer is
not reverted or compacted its text is edited from that of every earlier state whose chunks are still
in use (`Runs.held`), so a write that was begun there can be rebased.
-/

open SortedList SpanEdit List
open Except (ok.inj)
open Option (some.inj)

namespace Mica

/-! ## Views of a transaction -/

/-- A write that only edits. -/
structure PendingBuffer.Plain (pending : PendingBuffer) : Prop where
  kept : pending.deleted = false
  compact : pending.compact = false
  reverted : pending.reverted = false

namespace BufferTransaction

variable {tx tx' : BufferTransaction} {T : Text} {id other : Identity} {supply : Supply}
  {state : BufferState}

/-- What the transaction writes to a buffer is edited from a text, unless it is another one. -/
def Traces (T : Text) (id : Identity) (tx : BufferTransaction) : Prop :=
  ∀ pending, tx.bufferWrites.get? id = some pending → pending.Plain → T.Edited pending.text

/-- A text and a transaction that has found a text edited from it. -/
structure TracesFrom (T : Text) (id : Identity) (state : BufferState)
    (tx : BufferTransaction) : Prop where
  base : tx.base.get? id = some state
  edited : T.Edited state.text
  traces : tx.Traces T id

theorem traces_new (T : Text) (id : Identity) (base : BufferStates) :
    (BufferTransaction.new base).Traces T id := fun _ hpending =>
  nomatch SortedMap.get?_empty.symm.trans hpending

theorem Traces.insert (h : tx.Traces T id) {write : PendingBuffer}
    (hwrite : other = id → write.Plain → T.Edited write.text) :
    Traces T id { tx with bufferWrites := tx.bufferWrites.insert other write } := by
  intro pending hpending hplain
  dsimp only at hpending
  rw [SortedMap.get?_insert] at hpending
  split at hpending
  · next heq =>
    rw [← some.inj hpending] at hplain ⊢
    exact hwrite heq.symm hplain
  · exact h pending hpending hplain

theorem bufferText_edited (h : tx.TracesFrom T id state) {text : Text} {write : PendingBuffer}
    (htext : tx.bufferText id = .ok text) (hwrite : tx.bufferWrite id = .ok write)
    (hplain : write.Plain) : T.Edited text := by
  unfold BufferTransaction.bufferText at htext
  unfold BufferTransaction.bufferWrite at hwrite
  split at hwrite
  · cases hwrite
  cases hget : tx.bufferWrites.get? id with
  | some known =>
    rw [hget] at htext hwrite
    dsimp only at htext hwrite
    split at hwrite
    · cases hwrite
    obtain rfl := ok.inj hwrite
    rw [if_neg (by assumption)] at htext
    exact ok.inj htext ▸ h.traces known hget hplain
  | none =>
    rw [hget] at htext
    unfold baseBuffer at htext
    rw [h.base] at htext
    dsimp only at htext
    by_cases hdeleted : state.deleted = true
    · rw [if_pos hdeleted] at htext
      cases htext
    · rw [if_neg hdeleted] at htext
      exact ok.inj htext ▸ h.edited

theorem TracesFrom.updateWrite (h : tx.TracesFrom T id state) {f : PendingBuffer → PendingBuffer}
    (hupdate : tx.updateWrite other f = .ok tx')
    (hwrite : other = id → ∀ write, tx.bufferWrite id = .ok write → (f write).Plain →
      T.Edited (f write).text) : tx'.TracesFrom T id state := by
  unfold BufferTransaction.updateWrite at hupdate
  split at hupdate
  · cases hupdate
  rename_i write hbegun
  obtain rfl := ok.inj hupdate
  exact ⟨h.base, h.edited, h.traces.insert fun hother => hwrite hother write (hother ▸ hbegun)⟩

theorem TracesFrom.createBuffer (h : tx.TracesFrom T id state) {relations : List RelationMetadata}
    {metadata : BufferMetadata} (hcreate : tx.createBuffer relations metadata = .ok tx') :
    tx'.TracesFrom T id state := by
  unfold BufferTransaction.createBuffer at hcreate
  split at hcreate
  · cases hcreate
  rename_i hfree
  obtain rfl := ok.inj hcreate
  refine ⟨h.base, h.edited, h.traces.insert fun hother _ => absurd ?_ hfree⟩
  rw [hother, h.base]
  rfl

theorem TracesFrom.replaceBuffer (h : tx.TracesFrom T id state) {start stop : ℕ} {text : List Char}
    (hsupply : T.bound ≤ (supply.above (tx.baseText id)).chunk)
    (hreplace : tx.replaceBuffer other start stop text supply = .ok tx') :
    tx'.TracesFrom T id state := by
  rcases replaceBuffer_cases hreplace with rfl | ⟨previous, next, write, hprevious, hwrite, hnext, rfl⟩
  · exact h
  · refine ⟨h.base, h.edited, h.traces.insert fun hother hplain => ?_⟩
    subst hother
    have hold := bufferText_edited h hprevious hwrite ⟨hplain.kept, hplain.compact, hplain.reverted⟩
    exact hold.replace hnext hsupply

theorem edited_applyEdits (hsupply : T.bound ≤ supply.chunk) :
    ∀ {edits : List Replacement} {view view' : Text}, T.Edited view →
      applyEdits other supply edits view = .ok view' → T.Edited view'
  | [], _, _, hview, h => ok.inj h ▸ hview
  | edit :: edits, _, _, hview, h => by
    unfold applyEdits at h
    split at h
    · cases h
    rename_i hreplace
    exact edited_applyEdits hsupply (hview.replace hreplace hsupply) h

theorem TracesFrom.applyBuffer (h : tx.TracesFrom T id state) {expected : ℕ} {edits : List Replacement}
    {reserved : Except KernelError Unit} (hsupply : T.bound ≤ (supply.above (tx.baseText id)).chunk)
    (happly : tx.applyBuffer other expected edits supply reserved = .ok tx') :
    tx'.TracesFrom T id state := by
  unfold BufferTransaction.applyBuffer at happly
  split at happly
  · cases happly
  split at happly
  · exact ok.inj happly ▸ h
  split at happly
  · cases happly
  split at happly
  · cases happly
  rename_i text htext
  split at happly
  · cases happly
  rename_i view hview
  split at happly
  · cases happly
  refine h.updateWrite happly fun hother write hwrite hplain => ?_
  subst hother
  have hold := bufferText_edited h htext hwrite
    ⟨hplain.kept, hplain.compact, hplain.reverted⟩
  exact edited_applyEdits hsupply hold hview

theorem TracesFrom.compactBuffer (h : tx.TracesFrom T id state)
    (hcompact : tx.compactBuffer other supply = .ok tx') : tx'.TracesFrom T id state := by
  unfold BufferTransaction.compactBuffer at hcompact
  split at hcompact
  · cases hcompact
  split at hcompact
  · exact ok.inj hcompact ▸ h
  split at hcompact
  · cases hcompact
  split at hcompact
  · cases hcompact
  exact h.updateWrite hcompact fun _ _ _ hplain => nomatch hplain.compact

theorem TracesFrom.revertBuffer (h : tx.TracesFrom T id state) {revision expected : ℕ}
    {historical : Option BufferState}
    (hrevert : tx.revertBuffer other revision expected historical supply = .ok tx') :
    tx'.TracesFrom T id state := by
  unfold BufferTransaction.revertBuffer at hrevert
  split at hrevert
  · cases hrevert
  split at hrevert
  · exact ok.inj hrevert ▸ h
  split at hrevert
  · cases hrevert
  split at hrevert
  · exact ok.inj hrevert ▸ h
  · exact h.updateWrite hrevert fun _ _ _ hplain => nomatch hplain.reverted

end BufferTransaction

namespace RootTransaction

variable {M : Type → Type} [ByteMap M] {tx : RootTransaction M} {T : Text} {id : Identity}
  {state : BufferState}

/-- A step of a transaction, without regard to the texts that are in use. -/
theorem sound_act_alone (floor : ℕ) (hsound : tx.buffers.Sound .empty) (action : TransactionAction M) :
    (tx.act floor action).buffers.Sound .empty ∧
      (tx.act floor action).buffers.base = tx.buffers.base := by
  have hnone : ∀ id, BufferStates.empty.get? id = none := fun _ => SortedMap.get?_empty
  refine sound_act floor hsound (fun id _ _ hlive => ?_) (fun id _ _ hlive => ?_) action
  · cases (hnone id).symm.trans hlive
  · cases (hnone id).symm.trans hlive

/-- **One step of a transaction keeps what its views were edited from.** -/
theorem tracesFrom_act {floor : ℕ} (h : tx.buffers.TracesFrom T id state)
    (hsupply : ∀ supply :
      Supply, T.bound ≤ ((supply.atLeast floor).above (tx.buffers.baseText id)).chunk)
    (action : TransactionAction M) : (tx.act floor action).buffers.TracesFrom T id state := by
  have hbuffers : ∀ result : Except KernelError BufferTransaction,
      (∀ buffers, result = .ok buffers → buffers.TracesFrom T id state) →
      (tx.withBuffers result).buffers.TracesFrom T id state := by
    intro result hresult
    rcases tx.withBuffers_cases result with heq | ⟨buffers, hok, heq⟩
    · rwa [heq]
    · rw [heq]
      exact hresult buffers hok
  cases action with
  | assert relation t => exact h
  | retract relation t => exact h
  | replaceFunctional relation t => exact h
  | scan derived relation bindings => exact h
  | createBuffer metadata => exact hbuffers _ fun _ => h.createBuffer
  | replaceBuffer other start stop text supply =>
    exact hbuffers _ fun _ => h.replaceBuffer (hsupply supply)
  | deleteBuffer other =>
    exact hbuffers _ fun _ hdelete => h.updateWrite hdelete fun _ _ _ hplain => nomatch hplain.kept
  | applyBuffer other expected edits supply reserved =>
    exact hbuffers _ fun _ => h.applyBuffer (hsupply supply)
  | compactBuffer other supply => exact hbuffers _ fun _ => h.compactBuffer
  | revertBuffer other revision expected historical supply => exact hbuffers _ fun _ => h.revertBuffer

end RootTransaction

/-! ## Runs -/

namespace RootSystem

variable {M : Type → Type} [ByteMap M] {s t u f : RootSystem M}

/-- **What a step makes of the buffers and of the open transactions.** -/
structure Steps (s t : RootSystem M) : Prop where
  floor : t.floor = s.floor
  buffers : t.root.buffers = s.root.buffers ∨ ∃ tx ∈ s.transactions, ∃ relations supply changes,
    materializeBuffers relations s.root.buffers (Supply.atLeast supply s.floor) tx.buffers =
      .ok (t.root.buffers, changes)
  transactions : ∀ tx ∈ t.transactions, tx ∈ s.transactions ∨
    (tx = RootTransaction.new s.root ∧ t.root.buffers = s.root.buffers) ∨
    ∃ old ∈ s.transactions, ∃ action, tx = old.act s.floor action

/-- Only a commit changes the buffers. -/
theorem buffers_step (s : RootSystem M) {action : RootAction M}
    (hcommit : ∀ i settled supply persisted, action ≠ .commit i settled supply persisted) :
    (s.step action).root.buffers = s.root.buffers := by
  cases action with
  | createRelation metadata persisted =>
    simp only [step, root]
    rcases s.kernel.createRelation_cases metadata persisted with
      ⟨e, he⟩ | ⟨state, -, -, -, -, persistent, -, hresult⟩
    · rw [he]
    · rw [hresult]
      rfl
  | installRule rule source settled persisted =>
    simp only [step, root]
    rcases hresult : s.kernel.installRule rule source settled persisted with _ | result
    · rfl
    rcases s.kernel.installRule_cases rule source settled persisted hresult with
      ⟨e, rfl⟩ | ⟨definition, -, -, -, -, -, persistent, -, rfl⟩
    · rfl
    · rfl
  | disableRule ruleId settled persisted =>
    simp only [step, root]
    rcases s.kernel.disableRule_cases ruleId settled persisted with
      ⟨e, he⟩ | ⟨rules, -, -, persistent, -, hresult⟩
    · rw [he]
    · rw [hresult]
      rfl
  | begin => rfl
  | act i action => rfl
  | commit i settled supply persisted => exact absurd rfl (hcommit i settled supply persisted)

theorem steps_step (s : RootSystem M) (action : RootAction M) : Steps s (s.step action) := by
  cases action with
  | createRelation metadata persisted => exact ⟨rfl, .inl (buffers_step s nofun), fun _ => .inl⟩
  | installRule rule source settled persisted =>
    exact ⟨rfl, .inl (buffers_step s nofun), fun _ => .inl⟩
  | disableRule ruleId settled persisted => exact ⟨rfl, .inl (buffers_step s nofun), fun _ => .inl⟩
  | begin =>
    refine ⟨rfl, .inl rfl, fun tx htx => ?_⟩
    rcases mem_append.mp htx with hold | hnew
    · exact .inl hold
    · exact .inr (.inl ⟨mem_singleton.mp hnew, rfl⟩)
  | act i action =>
    refine ⟨rfl, .inl rfl, fun tx htx => ?_⟩
    obtain ⟨j, hj⟩ := mem_iff_getElem?.mp htx
    simp only [step] at hj
    rw [getElem?_modify, Option.map_eq_map, Option.map_eq_some_iff] at hj
    obtain ⟨old, hold, rfl⟩ := hj
    split
    · exact .inr (.inr ⟨old, mem_of_getElem? hold, action, rfl⟩)
    · exact .inl (mem_of_getElem? hold)
  | commit i settled supply persisted =>
    simp only [step]
    rcases htx : s.transactions[i]? with _ | tx
    · exact ⟨rfl, .inl rfl, fun _ => .inl⟩
    refine ⟨rfl, ?_, fun _ hmem => .inl (mem_of_mem_eraseIdx hmem)⟩
    rcases s.kernel.commit_cases settled (supply.atLeast s.floor) persisted tx with
      ⟨e, he⟩ | ⟨next, commit, hprepare, persistent, -, hresult⟩
    · left
      unfold root
      dsimp only
      rw [he]
    · obtain ⟨-, hmaterialize⟩ := RootTransaction.prepare_eq_ok hprepare
      right
      refine ⟨tx, mem_of_getElem? htx, s.root.facts.relationMetadata, supply,
        commit.bufferChanges, ?_⟩
      unfold root
      dsimp only
      rwa [hresult]

/-- **What holds along a run**: every open transaction began at an earlier state, and its views are
edited from what it found there. -/
structure Ordered (s : RootSystem M) : Prop where
  sound : s.Sound
  later : ∀ tx ∈ s.transactions, tx.buffers.base.Later s.root.buffers
  own : ∀ tx ∈ s.transactions, ∀ id state, tx.buffers.base.get? id = some state →
    tx.buffers.TracesFrom state.text id state

theorem ordered_start : (start : RootSystem M).Ordered := ⟨sound_start, nofun, nofun⟩

theorem Ordered.fork (h : s.Ordered) : s.fork.Ordered := ⟨h.sound.fork, nofun, nofun⟩

/-- The writes of an open transaction. -/
theorem Sound.alone (h : s.Sound) {tx : RootTransaction M} (htx : tx ∈ s.transactions) :
    tx.buffers.Sound .empty := by
  obtain ⟨-, -, -, -, -, hsound⟩ := h.runs tx htx
  exact hsound.alone

/-- A step publishes later states. -/
theorem Ordered.later_steps (h : s.Ordered) (hsteps : Steps s t) :
    s.root.buffers.Later t.root.buffers := by
  rcases hsteps.buffers with heq | ⟨tx, htx, relations, supply, changes, hmaterialize⟩
  · rw [heq]
    exact .refl _
  · exact later_materializeBuffers (h.sound.alone htx) (h.later tx htx).follows hmaterialize

theorem Ordered.steps (h : s.Ordered) (hsteps : Steps s t) (hsound : t.Sound) : t.Ordered := by
  have hlater := h.later_steps hsteps
  refine ⟨hsound, fun tx htx => ?_, fun tx htx id state hstate => ?_⟩
  · rcases hsteps.transactions tx htx with hold | ⟨rfl, hsame⟩ | ⟨old, hold, action, rfl⟩
    · exact (h.later tx hold).trans hlater
    · rw [hsame]
      exact .refl _
    · rw [(RootTransaction.sound_act_alone s.floor (h.sound.alone hold) action).2]
      exact (h.later old hold).trans hlater
  rcases hsteps.transactions tx htx with hold | ⟨rfl, -⟩ | ⟨old, hold, action, rfl⟩
  · exact h.own tx hold id state hstate
  · exact ⟨hstate, .self _, BufferTransaction.traces_new _ _ _⟩
  · rw [(RootTransaction.sound_act_alone s.floor (h.sound.alone hold) action).2] at hstate
    refine RootTransaction.tracesFrom_act (h.own old hold id state hstate) (fun supply => ?_) action
    have hbase : old.buffers.baseText id = state.text := by
      unfold BufferTransaction.baseText
      rw [hstate]
    rw [hbase]
    exact Supply.bound_le_above _ _

theorem root_commitStaged (u : RootSystem M) (expected : ℕ) (staged : Root M)
    (settled : Except KernelError Unit) (persisted : Except String Unit) :
    (u.commitStaged expected staged settled persisted).root =
      (u.kernel.commitStagedSnapshot expected staged settled persisted).1.root := rfl

/-- The published root of a staged commit is that of the fork, or the old one. -/
theorem commitStaged_cases (ht : t.Sound) (hfork : Progress t.fork f) (hlater : Progress t u)
    (settled : Except KernelError Unit) (persisted : Except String Unit) :
    (u.commitStaged t.root.facts.version f.root settled persisted).root = u.root ∨
      u.root = t.root ∧
        (u.commitStaged t.root.facts.version f.root settled persisted).root.buffers =
          f.root.buffers := by
  rw [root_commitStaged]
  rcases Progress.commitStaged ht hfork hlater settled persisted with
    ⟨e, he⟩ | ⟨-, hroot, kernel, commit, hresult, hexact⟩
  · rw [he]
    exact .inl rfl
  · rw [hresult]
    exact .inr ⟨hroot, hexact.buffers⟩

theorem later_commitStaged (ht : t.Sound) (hfork : Progress t.fork f) (hlater : Progress t u)
    (htf : t.root.buffers.Later f.root.buffers) (settled : Except KernelError Unit)
    (persisted : Except String Unit) : u.root.buffers.Later
      (u.commitStaged t.root.facts.version f.root settled persisted).root.buffers := by
  rcases commitStaged_cases ht hfork hlater settled persisted with hsame | ⟨hroot, hbuffers⟩
  · rw [hsame]
    exact .refl _
  · rwa [hroot, hbuffers]

/-- **Every run publishes later and later states.** -/
theorem Runs.ordered (h : Runs s t) : s.Ordered → t.Ordered ∧ s.root.buffers.Later t.root.buffers := by
  induction h with
  | refl s => exact fun h => ⟨h, .refl _⟩
  | @step s t hrun action ih =>
    intro hs
    obtain ⟨ht, hlater⟩ := ih hs
    have hsteps := steps_step t action
    exact ⟨ht.steps hsteps (ht.sound.progress_step action).sound, hlater.trans (ht.later_steps hsteps)⟩
  | @staged s t u f hrun hfork hlater settled persisted ih ihfork ihlater =>
    intro hs
    obtain ⟨ht, hst⟩ := ih hs
    obtain ⟨-, htf⟩ := ihfork ht.fork
    obtain ⟨hu, htu⟩ := ihlater ht
    have hsound := ((Runs.staged hrun hfork hlater settled persisted).progress hs.sound).sound
    have hnext := later_commitStaged ht.sound (hfork.progress ht.fork.sound)
      (hlater.progress ht.sound) htf
      settled persisted
    exact ⟨⟨hsound, fun tx htx => (hu.later tx htx).trans hnext, hu.own⟩, (hst.trans htu).trans hnext⟩

/-! ## While the texts of a state are in use -/

/-- The system, while the texts of its buffers stay in use. -/
def hold (s : RootSystem M) : RootSystem M := { s with floor := s.fork.floor }

/-- **The texts of the buffers that are edited by spans** descend from those of an earlier state,
unless the buffer was reverted or compacted since. -/
def Descends (live states : BufferStates) : Prop :=
  ∀ id a b, live.get? id = some a → states.get? id = some b → a.metadata.conflict = .span →
    b.structureEpoch = a.structureEpoch → b.deleted = false → a.text.Edited b.text

/-- What a transaction makes of those texts. -/
def Carries (live : BufferStates) (tx : BufferTransaction) : Prop :=
  ∀ id a b, live.get? id = some a → tx.base.get? id = some b → a.metadata.conflict = .span →
    b.structureEpoch = a.structureEpoch → b.deleted = false → tx.TracesFrom a.text id b

/-- **While some states are in use**: an open transaction began before them, or it carries their texts
on. -/
structure Held (live : BufferStates) (s : RootSystem M) : Prop where
  ordered : s.Ordered
  under : live.Under s.floor
  later : live.Later s.root.buffers
  descends : Descends live s.root.buffers
  carries : ∀ tx ∈ s.transactions, tx.buffers.base.Later live ∨
    (live.Later tx.buffers.base ∧ Carries live tx.buffers)

theorem descends_self (live : BufferStates) : Descends live live := by
  intro id a b ha hb _ _ _
  obtain rfl := some.inj (ha.symm.trans hb)
  exact .self _

theorem Ordered.held_hold (h : s.Ordered) : Held s.root.buffers s.hold where
  ordered := ⟨⟨h.sound.root, h.sound.runs⟩, h.later, h.own⟩
  under := s.under_fork
  later := .refl _
  descends := descends_self _
  carries tx htx := .inl (h.later tx htx)

variable {live : BufferStates}

theorem Held.fork (h : Held live s) : Held live s.fork :=
  ⟨h.ordered.fork, fun id state hstate => (h.under id state hstate).trans s.floor_le_fork, h.later,
    h.descends, nofun⟩

/-- **A write keeps the descent** from the states that are in use. -/
theorem Held.descends_write (h : Held live s) {tx : RootTransaction M} (htx : tx ∈ s.transactions)
    {relations : List RelationMetadata} {supply : Supply} {next : BufferStates}
    {changes : List BufferChange} (hmaterialize : materializeBuffers relations s.root.buffers
      (supply.atLeast s.floor) tx.buffers = .ok (next, changes)) : Descends live next := by
  intro id a b ha hb hpolicy hepoch hkept
  have hsound := h.ordered.sound.alone htx
  obtain ⟨latest, hlatest, hal⟩ := h.later id a ha
  rcases hpending : tx.buffers.bufferWrites.get? id with _ | pending
  · rw [materializeBuffers_get?_of_none hsound hpending hmaterialize] at hb
    exact h.descends id a b ha hb hpolicy hepoch hkept
  have hwritten := hsound id pending hpending
  obtain ⟨s₁, s₂, hsame, hwrite, hnext⟩ := materializeBuffers_at hsound hpending hmaterialize
  rw [hlatest] at hsame
  cases hbase : pending.base with
  | none =>
    obtain ⟨result, -, ⟨-, hcreated⟩ | ⟨_, _, hsome, -⟩⟩ := Materializing.write_cases hwrite
    · cases (Materializing.created_cases hcreated).1.symm.trans hsame
    · cases hsome.symm.trans hbase
  | some c =>
    have hc : tx.buffers.base.get? id = some c := hwritten.base_eq.symm.trans hbase
    have hcl := (h.ordered.later tx htx).get hc hlatest
    obtain ⟨latest', result, budget, hlatest', hedited, hrevision, hcases⟩ :=
      Materializing.write_of_base hwrite hwritten.key hbase
    obtain rfl := some.inj (hsame.symm.trans hlatest')
    rcases hcases with ⟨-, -, -, hold⟩ | ⟨hnew, -⟩
    · obtain rfl := some.inj (hb.symm.trans (hnext.trans hold))
      exact h.descends id a b ha hlatest hpolicy hepoch hkept
    obtain rfl := some.inj (hb.symm.trans (hnext.trans hnew))
    dsimp only at hepoch hkept ⊢
    -- the epoch is still that of the states in use, so the write only edits
    have hrestructures : (pending.compact || pending.reverted) = false := by
      by_contra htrue
      rw [Bool.not_eq_false] at htrue
      rw [htrue, if_pos rfl] at hepoch
      have := hal.epoch
      omega
    rw [hrestructures, if_neg Bool.false_ne_true, Nat.add_zero] at hepoch
    obtain ⟨hcompact, hreverted⟩ := Bool.or_eq_false_iff.mp hrestructures
    have hplain : pending.Plain := ⟨hkept, hcompact, hreverted⟩
    obtain ⟨found, hfound, hguard, halive, -⟩ := Materializing.edited_guard hedited
    obtain rfl := some.inj (hsame.symm.trans hfound)
    have hmetadata : c.metadata.conflict = .span := by
      rw [← hcl.follows.metadata, hal.follows.metadata, hpolicy]
    obtain ⟨-, -, ⟨hsameRevision, -, htext⟩ | ⟨-, -, -, -, -, -, happly⟩⟩ := edited_spec
      ⟨hwritten.metadata c hbase, hbase, hkept, hcompact, hreverted⟩ hmetadata hsame hedited
    · rw [htext]
      rcases h.carries tx htx with hbefore | ⟨hafter, hcarries⟩
      · have hca := hbefore.get hc ha
        have hle := hca.follows.le
        have hle' := hal.follows.le
        obtain rfl := hca.eq (by omega) (by omega)
        exact (h.ordered.own tx htx id a hc).traces pending hpending hplain
      · obtain rfl := hcl.eq hsameRevision hguard
        exact (hcarries id a latest ha hc hpolicy hepoch halive).traces pending hpending hplain
    · have hlatestEdited := h.descends id a latest ha hlatest hpolicy hepoch halive
      refine hlatestEdited.applyAll ?_ happly
      exact (h.under id a ha).trans ((le_max_right _ _).trans (le_max_left _ _))

/-- What a transaction carries on after one more step. -/
theorem Held.carries_act (h : Held live s) {tx : RootTransaction M} {action : TransactionAction M}
    (hbase : (tx.act s.floor action).buffers.base = tx.buffers.base)
    (hcarries : Carries live tx.buffers) : Carries live (tx.act s.floor action).buffers := by
  intro id a b ha hb hpolicy hepoch hkept
  rw [hbase] at hb
  refine RootTransaction.tracesFrom_act (hcarries id a b ha hb hpolicy hepoch hkept)
    (fun supply => ?_) action
  exact (h.under id a ha).trans ((le_max_right _ _).trans (le_max_left _ _))

theorem Held.steps (h : Held live s) (hsteps : Steps s t) (hsound : t.Sound) : Held live t := by
  have hnext := h.ordered.later_steps hsteps
  refine ⟨h.ordered.steps hsteps hsound, hsteps.floor ▸ h.under, h.later.trans hnext, ?_,
    fun tx htx => ?_⟩
  · rcases hsteps.buffers with heq | ⟨tx, htx, relations, supply, changes, hmaterialize⟩
    · rw [heq]
      exact h.descends
    · exact h.descends_write htx hmaterialize
  rcases hsteps.transactions tx htx with hold | ⟨rfl, -⟩ | ⟨old, hold, action, rfl⟩
  · exact h.carries tx hold
  · refine .inr ⟨h.later, fun id a b ha hb hpolicy hepoch hkept =>
      ⟨hb, ?_, BufferTransaction.traces_new _ _ _⟩⟩
    exact h.descends id a b ha hb hpolicy hepoch hkept
  · have hbase := (RootTransaction.sound_act_alone s.floor (h.ordered.sound.alone hold) action).2
    rw [hbase]
    exact (h.carries old hold).imp_right fun ⟨hafter, hcarries⟩ =>
      ⟨hafter, h.carries_act hbase hcarries⟩

/-- **Along every run the texts descend from those that are in use.** -/
theorem Runs.held (h : Runs s t) : Held live s → Held live t := by
  induction h with
  | refl s => exact id
  | @step s t hrun action ih =>
    intro hs
    exact (ih hs).steps (steps_step t action) ((ih hs).ordered.sound.progress_step action).sound
  | @staged s t u f hrun hfork hlater settled persisted ih ihfork ihlater =>
    intro hs
    have ht := ih hs
    have hf := ihfork ht.fork
    have hu := ihlater ht
    have hordered := ((Runs.staged hrun hfork hlater settled persisted).ordered hs.ordered).1
    rcases commitStaged_cases ht.ordered.sound (hfork.progress ht.fork.ordered.sound)
      (hlater.progress ht.ordered.sound) settled persisted with hsame | ⟨-, hbuffers⟩
    · exact ⟨hordered, hu.under, hsame ▸ hu.later, hsame ▸ hu.descends, hu.carries⟩
    · exact ⟨hordered, hu.under, hbuffers ▸ hf.later, hbuffers ▸ hf.descends, hu.carries⟩

/-- **A root only grows**: whatever transactions, forks and staged commits a kernel goes through, no
version falls or names two roots, metadata stays, every fact that changed is named by a commit that
is appended, rules stay in their places, and buffers come to later states. -/
theorem root_grows (hs : Runs start s) (h : Runs s t) :
    s.root.Grows t.root ∧ s.root.buffers.Later t.root.buffers := by
  obtain ⟨hordered, -⟩ := hs.ordered ordered_start
  exact ⟨(h.progress hordered.sound).grows, (h.ordered hordered).2⟩

theorem root_grows_oneRelation : ∃ t : RootSystem Entries,
    t.root.facts.version = oneRelation.root.facts.version + 1 ∧ oneRelation.root.Grows t.root :=
  ⟨oneRelation.commitStaged oneRelation.root.facts.version oneRelationForked.root (.ok ()) (.ok ()),
    by decide +kernel,
    (root_grows ((Runs.refl _).step _) (.staged (.refl _) ((Runs.refl _).foldl _) (.refl _) _ _)).1⟩

end RootSystem

end Mica
