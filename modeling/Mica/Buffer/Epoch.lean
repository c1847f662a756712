import Mica.Buffer.History

/-!
# Buffer/Epoch — what a commit does to a buffer that was reverted or compacted

The structure epoch of a buffer counts the reverts and compactions.  A state is determined by its
revision and its epoch among the states that are published one after the other (`BufferState.Later`); a
write that was begun at another epoch is refused (`materializeBuffers_guard`).
-/

open SortedList SpanEdit List SortedMap
open Except (ok.inj)
open Option (some.inj)

namespace Mica

/-! ## Later states -/

/-- **A later state of a buffer**, which is another one if its revision or its epoch is another. -/
structure BufferState.Later (a b : BufferState) : Prop where
  follows : a.Follows b
  epoch : a.structureEpoch ≤ b.structureEpoch
  eq : b.revision = a.revision → b.structureEpoch = a.structureEpoch → b = a

theorem BufferState.Later.refl (a : BufferState) : a.Later a := ⟨.refl a, le_rfl, fun _ _ => rfl⟩

theorem BufferState.Later.trans {a b c : BufferState} (h : a.Later b)
    (h' : b.Later c) : a.Later c := by
  refine ⟨h.follows.trans h'.follows, h.epoch.trans h'.epoch, fun hrevision hepoch => ?_⟩
  have hle := h.follows.le
  have hle' := h'.follows.le
  have hepoch₁ := h.epoch
  have hepoch₂ := h'.epoch
  rw [h'.eq (by omega) (by omega), h.eq (by omega) (by omega)]

/-- Later states of all buffers. -/
def BufferStates.Later (a b : BufferStates) : Prop :=
  ∀ id state, a.get? id = some state → ∃ state', b.get? id = some state' ∧ state.Later state'

theorem BufferStates.Later.refl (a : BufferStates) :
    a.Later a := fun _ state h => ⟨state, h, .refl state⟩

theorem BufferStates.Later.trans {a b c : BufferStates} (h : a.Later b) (h' : b.Later c) :
    a.Later c := fun id state hstate => by
  obtain ⟨state', hstate', hlater⟩ := h id state hstate
  obtain ⟨state'', hstate'', hlater'⟩ := h' id state' hstate'
  exact ⟨state'', hstate'', hlater.trans hlater'⟩

theorem BufferStates.Later.follows {a b : BufferStates} (h : a.Later b) : a.Follows b :=
  fun id state hstate => (h id state hstate).imp fun _ hlater => ⟨hlater.1, hlater.2.follows⟩

/-- Two states that one buffer has had, one after the other. -/
theorem BufferStates.Later.get {a b : BufferStates} (h : a.Later b) {id : Identity}
    {state state' : BufferState} (hstate : a.get? id = some state)
    (hstate' : b.get? id = some state') :
    state.Later state' := by
  obtain ⟨found, hfound, hlater⟩ := h id state hstate
  rwa [← some.inj (hfound.symm.trans hstate')]

/-! ## One write -/

namespace Materializing

variable {relations : List RelationMetadata} {base : BufferStates} {s s' : Materializing}
  {id other : Identity} {pending : PendingBuffer} {supply : Supply} {result : BufferResult}
  {budget : DeltaBudget} {state : BufferState}

/-- **What a buffer that was there must be**: not deleted, of the epoch that the write was begun at,
and of its revision unless the write only edits. -/
theorem edited_guard (h : s.edited supply id pending state = .ok (result, budget)) :
    ∃ latest, s.states.get? id = some latest ∧ latest.structureEpoch = state.structureEpoch ∧
      latest.deleted = false ∧ (latest.revision = state.revision ∨
        (pending.deleted = false ∧ pending.compact = false ∧ pending.reverted = false)) := by
  unfold edited at h
  split at h
  · cases h
  rename_i latest hlatest
  refine ⟨latest, hlatest, ?_⟩
  split at h
  · cases h
  rename_i hepoch
  refine ⟨not_not.mp hepoch, ?_⟩
  split at h
  · cases h
  rename_i hconflict
  rw [Bool.not_eq_true, Bool.or_eq_false_iff, Bool.and_eq_false_iff, bne_eq_false_iff_eq,
    Bool.or_eq_false_iff, Bool.or_eq_false_iff, Bool.or_eq_false_iff] at hconflict
  obtain ⟨hdeleted, hmoved⟩ := hconflict
  exact ⟨hdeleted, hmoved.imp_right fun h => ⟨h.1.1.1, h.1.1.2, h.1.2⟩⟩

/-- A write of a buffer that has not moved since. -/
theorem edited_same {latest : BufferState}
    (h : s.edited supply id pending state = .ok (result, budget))
    (hlatest : s.states.get? id = some latest) (hrevision : latest.revision = state.revision)
    (hcompact : pending.compact = false) :
    result.text = pending.text ∧ Delta.Of state.text pending.text result.delta := by
  unfold edited at h
  rw [hlatest] at h
  dsimp only at h
  split at h
  · cases h
  split at h
  · cases h
  rw [if_neg (by rw [hcompact]; exact nofun)] at h
  split at h
  · cases h
  rename_i d hcomplete
  obtain ⟨rfl, -⟩ := Prod.mk.inj (ok.inj h)
  exact ⟨rfl, Delta.complete_spec hcomplete⟩

/-- A write leaves the other buffers alone. -/
theorem write_get?_of_ne (h : s.write relations supply other pending = .ok s')
    (hkey : pending.metadata.id = other) (hne : id ≠ other) :
      s'.states.get? id = s.states.get? id := by
  obtain ⟨result, hpublish, -⟩ := write_cases h
  rcases publish_exact hpublish with ⟨-, -, -, -, hstates, -⟩ | ⟨revision, epoch, -, -, hstates, -⟩
  · rw [hstates]
  · rw [hstates]
    exact s.states.get?_insert_of_ne _ (by rw [hkey]; exact hne)

/-- What is in the place of a buffer that was there. -/
theorem write_of_base (h : s.write relations supply id pending = .ok s')
    (hkey : pending.metadata.id = id) (hbase : pending.base = some state) :
    ∃ latest result budget, s.states.get? id = some latest ∧
      s.edited supply id pending state = .ok (result, budget) ∧ result.baseRevision = latest.revision ∧
      ((result.delta.isEmpty = true ∧ pending.deleted = false ∧ pending.compact = false ∧
          s'.states.get? id = some latest) ∨
        s'.states.get? id = some ⟨pending.metadata,
            latest.revision + (if pending.compact then 0 else 1), result.text, pending.deleted,
            latest.structureEpoch + (if pending.compact || pending.reverted then 1 else 0)⟩ ∧
          (result.delta.isEmpty = true → pending.deleted = false → pending.compact = true)) := by
  obtain ⟨result, hpublish, hcases⟩ := write_cases h
  rcases hcases with ⟨hnone, -⟩ | ⟨state', budget, hsome, hedited⟩
  · cases hnone.symm.trans hbase
  obtain rfl := some.inj (hsome.symm.trans hbase)
  obtain ⟨latest, hlatest, -, hrevision, -⟩ := edited_cases hedited
  refine ⟨latest, result, budget, hlatest, hedited, hrevision, ?_⟩
  rcases publish_exact hpublish with ⟨-, hempty, hdeleted, hcompact, hstates, -⟩ |
    ⟨revision, epoch, hrev, hepoch, hstates, -, hchanged⟩
  · exact .inl ⟨hempty, hdeleted, hcompact, by rw [hstates, hlatest]⟩
  · right
    have hcreation : isEmptyCreation pending result = false := by
      unfold isEmptyCreation
      rw [hbase]
      rfl
    rw [hcreation, Bool.or_false, hrevision] at hrev
    rw [hlatest] at hepoch
    have hself := s.states.get?_insert_self
      ⟨pending.metadata, revision, result.text, pending.deleted, epoch⟩
    rw [hkey] at hself
    rw [hstates, hself, hrev, hepoch]
    exact ⟨rfl, hchanged (by rw [hbase]; rfl)⟩

/-- **A write publishes a later state**, or none. -/
theorem later_write (hpending : pending.Sound .empty base id) (hfollows : base.Follows s.states)
    (h : s.write relations supply id pending = .ok s') : s.states.Later s'.states := by
  obtain ⟨hgrown, -⟩ := follows_write hpending hfollows (nofun)
    (nofun) h
  intro id' latest hlatest
  obtain ⟨next, hnext, hnext'⟩ := hgrown id' latest hlatest
  refine ⟨next, hnext, ?_⟩
  by_cases hid : id' = id
  · subst hid
    cases hbase : pending.base with
    | none =>
      obtain ⟨result, -, ⟨-, hcreated⟩ | ⟨_, _, hsome, -⟩⟩ := write_cases h
      · cases (created_cases hcreated).1.symm.trans hlatest
      · cases hsome.symm.trans hbase
    | some state =>
      obtain ⟨latest', result, budget, hlatest', -, -, ⟨-, -, -, hsame⟩ | ⟨hnew, -⟩⟩ :=
        write_of_base h hpending.key hbase
      · obtain rfl := some.inj (hlatest.symm.trans hlatest')
        obtain rfl := some.inj (hnext.symm.trans hsame)
        exact .refl _
      · obtain rfl := some.inj (hlatest.symm.trans hlatest')
        obtain rfl := some.inj (hnext.symm.trans hnew)
        refine ⟨hnext', Nat.le_add_right _ _, fun hrevision hepoch => ?_⟩
        cases hcompact : pending.compact <;> simp [hcompact] at hrevision hepoch
  · rw [write_get?_of_ne h hpending.key hid] at hnext
    rw [← some.inj (hlatest.symm.trans hnext)]
    exact .refl _

/-! ## All writes of a commit -/

theorem later_writeAll {tx : BufferTransaction} (htx : tx.Sound .empty) :
    ∀ {writes : List (Identity × PendingBuffer)} {s s' : Materializing},
      (∀ e ∈ writes, tx.bufferWrites.get? e.1 = some e.2) → tx.base.Follows s.states →
      s.writeAll relations supply writes = .ok s' → s.states.Later s'.states
  | [], _, _, _, _, h => by
    rw [← ok.inj h]
    exact .refl _
  | (id, pending) :: writes, s, s', hwrites, hfollows, h => by
    unfold writeAll at h
    split at h
    · cases h
    rename_i s₁ hwrite
    have hstep := later_write (htx id pending (hwrites _ mem_cons_self)) hfollows hwrite
    exact hstep.trans (later_writeAll htx (fun e he => hwrites e (mem_cons_of_mem _ he))
      (hfollows.trans hstep.follows) h)

/-- Other writes do not touch a buffer. -/
theorem writeAll_get?_of_notMem : ∀ {writes : List (Identity × PendingBuffer)} {s s' : Materializing},
    (∀ e ∈ writes, e.2.metadata.id = e.1) → id ∉ writes.map Prod.fst →
    s.writeAll relations supply writes = .ok s' → s'.states.get? id = s.states.get? id
  | [], _, _, _, _, h => by rw [← ok.inj h]
  | (other, pending) :: writes, s, s', hkeys, hnot, h => by
    obtain ⟨hkey, hrest⟩ := forall_mem_cons.mp hkeys
    rw [map_cons, mem_cons, not_or] at hnot
    unfold writeAll at h
    split at h
    · cases h
    rename_i s₁ hwrite
    rw [writeAll_get?_of_notMem hrest hnot.2 h, write_get?_of_ne hwrite hkey hnot.1]

/-- **The write of a buffer, among the others.** -/
theorem writeAll_at : ∀ {writes : List (Identity × PendingBuffer)} {s s' : Materializing},
    (∀ e ∈ writes, e.2.metadata.id = e.1) → (writes.map Prod.fst).Nodup → (id, pending) ∈ writes →
    s.writeAll relations supply writes = .ok s' →
    ∃ s₁ s₂ : Materializing, s₁.states.get? id = s.states.get? id ∧
      s₁.write relations supply id pending = .ok s₂ ∧ s'.states.get? id = s₂.states.get? id
  | (other, write) :: writes, s, s', hkeys, hnodup, hmem, h => by
    obtain ⟨hkey, hrest⟩ := forall_mem_cons.mp hkeys
    rw [map_cons] at hnodup
    obtain ⟨hnot, hnodup⟩ := nodup_cons.mp hnodup
    unfold writeAll at h
    split at h
    · cases h
    rename_i s₁ hwrite
    rcases mem_cons.mp hmem with heq | hmem'
    · obtain ⟨rfl, rfl⟩ := Prod.mk.inj heq
      exact ⟨s, s₁, rfl, hwrite, writeAll_get?_of_notMem hrest hnot h⟩
    have hne : id ≠ other := by
      intro heq
      exact hnot (heq ▸ mem_map.mpr ⟨(id, pending), hmem', rfl⟩)
    obtain ⟨s₂, s₃, hsame, hwrite', hlast⟩ := writeAll_at hrest hnodup hmem' h
    exact ⟨s₂, s₃, hsame.trans (write_get?_of_ne hwrite hkey hne), hwrite', hlast⟩

end Materializing

section Commit

variable {relations : List RelationMetadata} {current next : BufferStates} {tx : BufferTransaction}
  {supply : Supply} {changes : List BufferChange} {id : Identity} {pending : PendingBuffer}

/-- **A commit publishes later states.** -/
theorem later_materializeBuffers (htx : tx.Sound .empty) (hfollows : tx.base.Follows current)
    (h : materializeBuffers relations current supply tx = .ok (next, changes)) :
      current.Later next := by
  unfold materializeBuffers at h
  split at h
  · cases h
  rename_i s hwrites
  obtain ⟨rfl, -⟩ := Prod.mk.inj (ok.inj h)
  exact Materializing.later_writeAll htx (fun e he => get?_eq_some.mpr he) hfollows hwrites

/-- The write of a buffer in a commit. -/
theorem materializeBuffers_at (htx : tx.Sound .empty)
    (hpending : tx.bufferWrites.get? id = some pending)
    (h : materializeBuffers relations current supply tx = .ok (next, changes)) :
    ∃ s₁ s₂ : Materializing, s₁.states.get? id = current.get? id ∧
      s₁.write relations supply id pending = .ok s₂ ∧ next.get? id = s₂.states.get? id := by
  unfold materializeBuffers at h
  split at h
  · cases h
  rename_i s hwrites
  obtain ⟨rfl, -⟩ := Prod.mk.inj (ok.inj h)
  exact Materializing.writeAll_at
    (fun e he => (htx e.1 e.2 (get?_eq_some.mpr he)).key)
    (tx.bufferWrites.pairwise_keys.imp ne_of_lt) (get?_eq_some.mp hpending) hwrites

/-- A commit leaves the buffers alone that it does not write. -/
theorem materializeBuffers_get?_of_none (htx : tx.Sound .empty)
    (hnone : tx.bufferWrites.get? id = none)
    (h : materializeBuffers relations current supply tx = .ok (next, changes)) :
    next.get? id = current.get? id := by
  unfold materializeBuffers at h
  split at h
  · cases h
  rename_i s hwrites
  obtain ⟨rfl, -⟩ := Prod.mk.inj (ok.inj h)
  refine Materializing.writeAll_get?_of_notMem
    (fun e he => (htx e.1 e.2 (get?_eq_some.mpr he)).key) (fun hmem => ?_) hwrites
  obtain ⟨⟨_, pending⟩, he, rfl⟩ := mem_map.mp hmem
  cases hnone.symm.trans (get?_eq_some.mpr he)

/-- **A commit that writes a buffer finds it as the write was begun**: it is still not there, or not
deleted and of the same epoch. -/
theorem materializeBuffers_guard (htx : tx.Sound .empty)
    (hpending : tx.bufferWrites.get? id = some pending)
    (h : materializeBuffers relations current supply tx = .ok (next, changes)) :
    (pending.base = none ∧ current.get? id = none) ∨
      ∃ state latest, pending.base = some state ∧ current.get? id = some latest ∧
        latest.structureEpoch = state.structureEpoch ∧ latest.deleted = false := by
  obtain ⟨s₁, s₂, hsame, hwrite, -⟩ := materializeBuffers_at htx hpending h
  rw [← hsame]
  obtain ⟨result, -, ⟨hbase, hcreated⟩ | ⟨state, budget, hbase, hedited⟩⟩ :=
    Materializing.write_cases hwrite
  · exact .inl ⟨hbase, (Materializing.created_cases hcreated).1⟩
  · obtain ⟨latest, hlatest, hepoch, hdeleted, -⟩ := Materializing.edited_guard hedited
    exact .inr ⟨state, latest, hbase, hlatest, hepoch, hdeleted⟩

end Commit

/-! ## Compactions and reverts -/

/-- All characters of a new text are new. -/
theorem Text.tokens_fromText (base : Text) (text : List Char) {supply : Supply}
    (h : base.bound ≤ supply.chunk) :
    base.tokens (Text.fromText text supply) = text.map .fresh := by
  have hread := read_newPieces (g := base.token) (h := Token.fresh) base.bound
    (fun _ k hle => token_of_bound_le hle k) (chunksOf text.length text) h
  rwa [flatten_chunksOf _ _ le_rfl] at hread

/-- A new text that changes nothing is empty, and so was the base. -/
theorem Delta.Of.fromText_eq_nil {base : Text} {text : List Char} {supply : Supply}
    (h : Delta.Of base (Text.fromText text supply) Delta.empty) (hsupply : base.bound ≤ supply.chunk) :
    text = [] ∧ base.toText = [] := by
  have hrender := h.render
  rw [base.tokens_fromText text hsupply] at hrender
  -- what is kept of the base would be new
  have hlen : base.len = 0 := by
    by_contra hpos
    have hkept : keptRange (α := Char) 0 base.len = text.map .fresh := hrender
    rw [keptRange_of_lt (Nat.pos_of_ne_zero hpos)] at hkept
    cases text with
    | nil => exact nomatch hkept
    | cons c text => exact nomatch (List.cons.inj hkept).1
  have hempty : text.map Token.fresh = [] := by
    rw [← hrender, hlen]
    rfl
  refine ⟨map_eq_nil_iff.mp hempty, length_eq_zero_iff.mp ?_⟩
  rw [base.length_toText, hlen]

section Restructure

variable {relations : List RelationMetadata} {current next : BufferStates} {tx : BufferTransaction}
  {supply : Supply} {changes : List BufferChange} {id : Identity} {pending : PendingBuffer}
  {state : BufferState}

/-- **A compaction that commits** puts its text in the place of the old one, at the next epoch. -/
theorem materializeBuffers_compact (htx : tx.Sound .empty)
    (hpending : tx.bufferWrites.get? id = some pending) (hbase : pending.base = some state)
    (hcompact : pending.compact = true) (hkept : pending.deleted = false)
    (h : materializeBuffers relations current supply tx = .ok (next, changes)) :
    ∃ latest after, current.get? id = some latest ∧ next.get? id = some after ∧
      latest.revision = state.revision ∧ latest.structureEpoch = state.structureEpoch ∧
      after.text = pending.text ∧ after.revision = latest.revision ∧ after.deleted = false ∧
      after.structureEpoch = latest.structureEpoch + 1 := by
  obtain ⟨s₁, s₂, hsame, hwrite, hnext⟩ := materializeBuffers_at htx hpending h
  obtain ⟨latest, result, budget, hlatest, hedited, -, hcases⟩ :=
    Materializing.write_of_base hwrite (htx id pending hpending).key hbase
  obtain ⟨latest', hlatest', hepoch, -⟩ := Materializing.edited_guard hedited
  obtain rfl := some.inj (hlatest.symm.trans hlatest')
  obtain ⟨latest', hlatest', -, -, ⟨-, hrevision, htext, -⟩ | ⟨hnot, -⟩⟩ :=
    Materializing.edited_cases hedited
  · obtain rfl := some.inj (hlatest.symm.trans hlatest')
    rcases hcases with ⟨-, -, hnot, -⟩ | ⟨hnew, -⟩
    · cases hnot.symm.trans hcompact
    refine ⟨latest, _, hsame ▸ hlatest, hnext.trans hnew, hrevision, hepoch, htext, ?_, hkept, ?_⟩
    · rw [hcompact]
      rfl
    · rw [hcompact]
      rfl
  · cases hnot.symm.trans hcompact

/-- **A revert that commits** publishes its text as the next revision, at the next epoch, unless
there is nothing to change. -/
theorem materializeBuffers_revert (htx : tx.Sound .empty)
    (hpending : tx.bufferWrites.get? id = some pending) (hbase : pending.base = some state)
    (hreverted : pending.reverted = true) (hcompact : pending.compact = false)
    (hkept : pending.deleted = false)
    (h : materializeBuffers relations current supply tx = .ok (next, changes)) :
    ∃ latest after, current.get? id = some latest ∧ next.get? id = some after ∧
      latest.revision = state.revision ∧ latest.structureEpoch = state.structureEpoch ∧
      ((Delta.Of state.text pending.text Delta.empty ∧ after = latest) ∨
        (after.text = pending.text ∧ after.revision = latest.revision + 1 ∧ after.deleted = false ∧
          after.structureEpoch = latest.structureEpoch + 1 ∧
          ¬ (state.text.toText = [] ∧ pending.text.toText = []))) := by
  obtain ⟨s₁, s₂, hsame, hwrite, hnext⟩ := materializeBuffers_at htx hpending h
  obtain ⟨latest, result, budget, hlatest, hedited, -, hcases⟩ :=
    Materializing.write_of_base hwrite (htx id pending hpending).key hbase
  obtain ⟨latest', hlatest', hepoch, -, hrevision⟩ := Materializing.edited_guard hedited
  obtain rfl := some.inj (hlatest.symm.trans hlatest')
  have hsameRevision : latest.revision = state.revision :=
    hrevision.resolve_right fun hnot => nomatch hnot.2.2.symm.trans hreverted
  have hresult : result.text = pending.text ∧ Delta.Of state.text pending.text result.delta :=
    Materializing.edited_same hedited hlatest hsameRevision hcompact
  rcases hcases with ⟨hempty, -, -, hold⟩ | ⟨hnew, hchanged⟩
  · have hdelta : result.delta = Delta.empty := by
      cases hd : result.delta with
      | mk rs =>
        rw [hd] at hempty
        exact congrArg Delta.mk (List.isEmpty_iff.mp hempty)
    exact ⟨latest, latest, hsame ▸ hlatest, hnext.trans hold, hsameRevision, hepoch,
      .inl ⟨hdelta ▸ hresult.2, rfl⟩⟩
  refine ⟨latest, _, hsame ▸ hlatest, hnext.trans hnew, hsameRevision, hepoch,
    .inr ⟨hresult.1, ?_, hkept, ?_, fun ⟨hbefore, hafter⟩ => ?_⟩⟩
  · rw [hcompact]
    rfl
  · rw [hreverted, Bool.or_true]
    rfl
  · rw [hresult.2.eq_empty hbefore hafter] at hchanged
    cases hcompact.symm.trans (hchanged rfl hkept)

end Restructure

end Mica
