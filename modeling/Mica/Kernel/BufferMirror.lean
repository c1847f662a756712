import Mica.Kernel.Replay

/-!
# Kernel/BufferMirror — what replay makes of the buffers

The replayed buffers **mirror** the live ones (`BufferStates.Mirrors`): a durable buffer has the live
revision and text; a volatile one is empty, and the live revision is the persisted one or, after a
restart that nothing was written after, the next.  A change that a commit publishes leads from one
state of a buffer to another (`BufferChange.Leads`), and replaying it moves the mirror along.

* `BufferStates.Mirrors.replay` — one change.
* `BufferStates.Mirrors.materialize` — the commit of a transaction.
* `BufferStates.Mirrors.restore` — the restored buffers follow the live ones, and are mirrored again.
-/

open SortedList SpanEdit List SortedMap
open Except (ok.inj)
open Option (some.inj)

namespace Mica

/-! ## Texts by their content -/

/-- Applying a delta reads nothing but the text. -/
theorem Delta.applyAll_congr (supply' : Supply) {supply : Supply} {view other : Text}
    (htext : other.toText = view.toText) : ∀ {rs : List Replacement} {view' : Text},
    applyAll supply view rs = .ok view' →
      ∃ other', applyAll supply' other rs = .ok other' ∧ other'.toText = view'.toText
  | [], view', h => ⟨other, rfl, by rw [htext, ok.inj h]⟩
  | r :: rs, view', h => by
    unfold applyAll at h ⊢
    split at h
    · cases h
    rename_i view₁ hrest
    obtain ⟨view₂, hview₂, htext₂⟩ := Delta.applyAll_congr supply' htext hrest
    split at h
    · cases h
    rename_i hreplace
    obtain rfl := ok.inj h
    have hlen : view₂.len = view₁.len := by rw [← view₂.length_toText, htext₂, view₁.length_toText]
    obtain ⟨hle, hstop⟩ := Text.range_of_replace hreplace
    obtain ⟨view₃, hview₃⟩ := Text.exists_replace r.text supply' hle (hlen ▸ hstop)
    rw [hview₂]
    dsimp only
    rw [hview₃]
    refine ⟨view₃, rfl, ?_⟩
    rw [Text.toText_replace hview₃, Text.toText_replace hreplace, htext₂]

/-- **A delta makes one text of another**, by their content. -/
def Delta.Makes (d : Delta) (before after : List Char) : Prop :=
  ∀ text : Text, text.toText = before → ∀ supply, ∃ view, d.apply text supply = .ok view ∧
    view.toText = after

theorem Delta.makes_of_apply {d : Delta} {text view : Text} {supply : Supply}
    (h : d.apply text supply = .ok view) : d.Makes text.toText view.toText :=
  fun _ hother supply' => Delta.applyAll_congr supply' hother h

theorem Delta.Of.makes {base view : Text} {d : Delta} (h : Of base view d) (hshows : base.Shows view) :
    d.Makes base.toText view.toText := by
  obtain ⟨text, happly, htext⟩ := h.apply hshows ⟨0, 0⟩
  rw [← htext]
  exact makes_of_apply happly

/-- The delta that replaces everything. -/
theorem Delta.makes_whole {text : Text} {chars : List Char} {d : Delta}
    (h : Delta.new [⟨0, text.len, chars⟩] = .ok d) : d.Makes text.toText chars := by
  intro other hother supply
  have hlen : other.len = text.len := by rw [← other.length_toText, hother, text.length_toText]
  by_cases hempty : text.len = 0 ∧ chars = []
  · have hnew : Delta.new [⟨0, text.len, chars⟩] = .ok Delta.empty := by
      simp [Delta.new, newFrom, hempty, Delta.empty]
    rw [hnew] at h
    obtain rfl := ok.inj h
    refine ⟨other, rfl, ?_⟩
    rw [hempty.2, ← length_eq_zero_iff, other.length_toText, hlen, hempty.1]
  have hsolid : ¬(0 = text.len ∧ chars = []) := fun hboth => hempty ⟨hboth.1.symm, hboth.2⟩
  have hnew : Delta.new [⟨0, text.len, chars⟩] = .ok ⟨[⟨0, text.len, chars⟩]⟩ := by
    simp [Delta.new, newFrom, hsolid, getLast?_nil]
  rw [hnew] at h
  obtain rfl := ok.inj h
  obtain ⟨view, hview⟩ := Text.exists_replace chars supply (Nat.zero_le other.len) le_rfl
  refine ⟨view, ?_, ?_⟩
  · unfold Delta.apply applyAll applyAll
    dsimp only
    rw [← hlen, hview]
  · rw [Text.toText_replace hview]
    simp [splice, ← other.length_toText]

/-- Nothing comes of nothing but the empty delta. -/
theorem Delta.Of.toText_eq_nil {view : Text} {d : Delta} (h : Of Text.empty view d)
    (hd : d.isEmpty = true) : view.toText = [] := by
  obtain ⟨text, happly, htext⟩ := h.apply (Text.shows_empty view) ⟨0, 0⟩
  unfold Delta.apply at happly
  rw [List.isEmpty_iff.mp hd] at happly
  rw [← htext, ← ok.inj happly]
  rfl

/-! ## Names -/

namespace BufferStates

/-- **Every buffer has a name of its own.** -/
structure Named (states : BufferStates) : Prop where
  named : ∀ id state, states.get? id = some state → states.names.lookup state.metadata.name = some id
  known : ∀ name id, states.names.lookup name = some id →
    ∃ state, states.get? id = some state ∧ state.metadata.name = name

variable {states : BufferStates} {state : BufferState}

theorem named_empty : empty.Named := ⟨nofun, nofun⟩

theorem Named.named_eq_none (h : states.Named) {name : Symbol} :
    states.named name = none ↔ ∀ id state, states.get? id = some state →
      state.metadata.name ≠ name := by
  unfold BufferStates.named
  constructor
  · rintro hnone id state hstate rfl
    rw [h.named id state hstate, Option.bind_some, hstate] at hnone
    cases hnone
  intro hfree
  rcases hlookup : states.names.lookup name with _ | id
  · rfl
  obtain ⟨state, hstate, hname⟩ := h.known name id hlookup
  exact absurd hname (hfree id state hstate)

theorem Named.unique (h : states.Named) {id id' : Identity} {state state' : BufferState}
    (hstate : states.get? id = some state) (hstate' : states.get? id' = some state')
    (hname : state'.metadata.name = state.metadata.name) : id' = id := by
  have heq := h.named id' state' hstate'
  rw [hname, h.named id state hstate] at heq
  exact (some.inj heq).symm

/-- A new state of a buffer, or a buffer with a new name. -/
theorem Named.insert (h : states.Named)
    (hstate : (∃ old, states.get? state.metadata.id = some old ∧ old.metadata = state.metadata) ∨
      states.get? state.metadata.id = none ∧ states.named state.metadata.name = none) :
    (states.insert state).Named := by
  have hname : ∀ name, (states.insert state).names.lookup name =
      if name = state.metadata.name then some state.metadata.id else states.names.lookup name := by
    intro name
    unfold BufferStates.insert
    dsimp only
    split
    · next hknown =>
      split
      · next heq => rw [heq, hknown]
      · rfl
    · rw [lookup_cons]
      by_cases heq : name = state.metadata.name
      · rw [if_pos heq, heq, beq_self_eq_true]
      · rw [if_neg heq, beq_false_of_ne heq]
  constructor
  · intro id other hother
    rw [hname]
    by_cases hid : id = state.metadata.id
    · subst hid
      rw [states.get?_insert_self] at hother
      rw [← some.inj hother, if_pos rfl]
    rw [states.get?_insert_of_ne state hid] at hother
    split
    · next heq =>
      rcases hstate with ⟨old, hold, hmeta⟩ | ⟨-, hfree⟩
      · exact absurd (h.unique hold hother (by rw [heq, hmeta])) hid
      · exact absurd heq (h.named_eq_none.mp hfree id other hother)
    · exact h.named id other hother
  · intro name id hlookup
    rw [hname] at hlookup
    split at hlookup
    · next heq =>
      obtain rfl := some.inj hlookup
      exact ⟨state, states.get?_insert_self state, heq.symm⟩
    rename_i hne
    obtain ⟨other, hother, hothername⟩ := h.known name id hlookup
    by_cases hid : id = state.metadata.id
    · subst hid
      rcases hstate with ⟨old, hold, hmeta⟩ | ⟨hnone, -⟩
      · obtain rfl := some.inj (hold.symm.trans hother)
        exact absurd (hothername.symm.trans (by rw [hmeta])) hne
      · cases hnone.symm.trans hother
    · exact ⟨other, (states.get?_insert_of_ne state hid).trans hother, hothername⟩

end BufferStates

/-! ## Mirrors -/

/-- A state without text that could not be there. -/
structure BufferState.Plain (state : BufferState) : Prop where
  zero : state.revision = 0 → state.text.toText = [] ∧ state.deleted = false
  deleted : state.deleted = true → state.text.toText = []

/-- **What replay has of a live buffer.** -/
structure BufferState.Mirrors (p l : BufferState) : Prop where
  metadata : l.metadata = p.metadata
  deleted : l.deleted = p.deleted
  plain : l.Plain
  durable : l.metadata.durability = .durable →
    l.revision = p.revision ∧ l.text.toText = p.text.toText
  volatile : l.metadata.durability = .volatile → p.text.toText = [] ∧ (l.revision = p.revision ∨
    l.revision = p.revision + 1 ∧ p.revision ≠ 0 ∧ l.text.toText = [] ∧ l.deleted = false)

theorem RelationDurability.eq_durable_or_volatile (d : RelationDurability) :
    d = .durable ∨ d = .volatile := by
  cases d with
  | durable => exact .inl rfl
  | volatile => exact .inr rfl

theorem BufferState.Mirrors.le {p l : BufferState} (h : p.Mirrors l) : p.revision ≤ l.revision := by
  rcases l.metadata.durability.eq_durable_or_volatile with hd | hd
  · exact (h.durable hd).1.ge
  · rcases (h.volatile hd).2 with heq | ⟨heq, -⟩ <;> omega

/-- **A change leads from one state of a buffer to another.** -/
structure BufferChange.Leads (change : BufferChange) (before : Option BufferState)
    (after : BufferState) :
    Prop where
  metadata : change.metadata = after.metadata
  revision : change.revision = after.revision
  deleted : change.deleted = after.deleted
  base : change.baseRevision = before.elim 0 BufferState.revision
  text : change.delta.Makes (before.elim [] fun state => state.text.toText) after.text.toText
  moved : ∀ previous, before = some previous → previous.revision < change.revision ∧
    previous.metadata = change.metadata ∧ previous.deleted = false
  fresh : before = none → change.revision = 0 → change.delta.isEmpty = true ∧ change.deleted = false

namespace BufferStates

/-- **Replayed buffers that mirror the live ones.** -/
def Mirrors (replayed live : BufferStates) : Prop :=
  ∀ id, Option.Rel BufferState.Mirrors (replayed.get? id) (live.get? id)

variable {replayed replayed' live live' : BufferStates} {change : BufferChange} {after : BufferState}
  {supply : Supply}

theorem Mirrors.of_live (h : replayed.Mirrors live) {id : Identity} {l : BufferState}
    (hl : live.get? id = some l) : ∃ p, replayed.get? id = some p ∧ p.Mirrors l := by
  have hid := h id
  rw [hl] at hid
  rcases hp : replayed.get? id with _ | p
  · rw [hp] at hid
    cases hid
  rw [hp] at hid
  cases hid with
  | some hmirrors => exact ⟨p, rfl, hmirrors⟩

theorem Mirrors.of_replayed (h : replayed.Mirrors live) {id : Identity} {p : BufferState}
    (hp : replayed.get? id = some p) : ∃ l, live.get? id = some l ∧ p.Mirrors l := by
  have hid := h id
  rw [hp] at hid
  rcases hl : live.get? id with _ | l
  · rw [hl] at hid
    cases hid
  rw [hl] at hid
  cases hid with
  | some hmirrors => exact ⟨l, rfl, hmirrors⟩

theorem Mirrors.insert (h : replayed.Mirrors live) {p l : BufferState} (hmirrors : p.Mirrors l) :
    (replayed.insert p).Mirrors (live.insert l) := by
  have hmeta : l.metadata.id = p.metadata.id := by rw [hmirrors.metadata]
  intro id
  by_cases hid : id = p.metadata.id
  · subst hid
    have hl := live.get?_insert_self l
    rw [hmeta] at hl
    rw [replayed.get?_insert_self, hl]
    exact .some hmirrors
  · rw [replayed.get?_insert_of_ne p hid, live.get?_insert_of_ne l (hmeta ▸ hid)]
    exact h id

/-- The persisted part of a change. -/
theorem persistentBufferChange_fields (change : BufferChange) :
    (RelationKernel.persistentBufferChange change).metadata = change.metadata ∧
      (RelationKernel.persistentBufferChange change).baseRevision = change.baseRevision ∧
      (RelationKernel.persistentBufferChange change).revision = change.revision ∧
      (RelationKernel.persistentBufferChange change).deleted = change.deleted := by
  unfold RelationKernel.persistentBufferChange
  split <;> exact ⟨rfl, rfl, rfl, rfl⟩

/-- No check of `replay` refuses a change that follows the mirror. -/
theorem refuses_persistent {before : Option BufferState}
    (hbefore : Option.Rel BufferState.Mirrors (replayed.get? change.metadata.id) before)
    (hleads : change.Leads before after)
    (hfree : before = none → replayed.named change.metadata.name = none) :
    replayed.refuses (RelationKernel.persistentBufferChange change) = false := by
  obtain ⟨hmeta, hbase, hrevision, hdeleted⟩ := persistentBufferChange_fields change
  unfold refuses isEmptyCreation
  rw [hmeta, hbase, hrevision, hdeleted, hleads.base]
  cases before with
  | none =>
    have hnone : replayed.get? change.metadata.id = none := by
      rcases hget : replayed.get? change.metadata.id with _ | p
      · rfl
      rw [hget] at hbefore
      cases hbefore
    have hcreation : change.revision = 0 →
        (RelationKernel.persistentBufferChange change).delta.isEmpty = true ∧
          change.deleted = false := by
      intro hzero
      obtain ⟨hempty, hkept⟩ := hleads.fresh rfl hzero
      refine ⟨?_, hkept⟩
      unfold RelationKernel.persistentBufferChange
      split
      · rfl
      · exact hempty
    by_cases hzero : change.revision = 0
    · obtain ⟨hempty, hkept⟩ := hcreation hzero
      simp [hnone, hzero, hempty, hkept, hfree rfl]
    · simp [hnone, hzero, hfree rfl]
  | some l =>
    obtain ⟨p, hp, hmirrors⟩ : ∃ p, replayed.get? change.metadata.id = some p ∧ p.Mirrors l := by
      rcases hget : replayed.get? change.metadata.id with _ | p
      · rw [hget] at hbefore
        cases hbefore
      rw [hget] at hbefore
      cases hbefore with
      | some hmirrors => exact ⟨p, rfl, hmirrors⟩
    obtain ⟨hlt, hsame, hkept⟩ := hleads.moved l rfl
    have hle := hmirrors.le
    have hpmeta : p.metadata = change.metadata := hmirrors.metadata.symm.trans hsame
    have hpdeleted : p.deleted = false := hmirrors.deleted.symm.trans hkept
    have hdurable : change.metadata.durability = .durable → l.revision = p.revision := by
      rw [← hsame]
      exact fun hd => (hmirrors.durable hd).1
    have hlt' : p.revision < change.revision := by omega
    simp only [hp, Option.elim_some, Option.isNone_some, Option.any_some, hpmeta, hpdeleted,
      Bool.false_and, Bool.not_false, Bool.true_and, Bool.or_false, ne_eq,
      not_true_eq_false, decide_false, Bool.or_eq_false_iff, Bool.and_eq_false_iff,
      decide_eq_false_iff_not, not_le, not_lt, not_not]
    refine ⟨⟨⟨hlt', decide_eq_false (not_le.mpr hlt)⟩, hle⟩, ?_⟩
    by_cases hd : change.metadata.durability = .durable
    · exact .inr (hdurable hd)
    · exact .inl hd

/-- **Replaying the persisted part of a change moves the mirror along.** -/
theorem replay_persistent (supply : Supply) (hnamed : replayed.Named) {before : Option BufferState}
    (hbefore : Option.Rel BufferState.Mirrors (replayed.get? change.metadata.id) before)
    (hleads : change.Leads before after) (hplain : after.Plain)
    (hfree : before = none → replayed.named change.metadata.name = none) :
    ∃ p, replayed.replay supply (RelationKernel.persistentBufferChange change) =
      .ok (replayed.insert p) ∧
      p.Mirrors after ∧ (replayed.insert p).Named := by
  have hrefuses := refuses_persistent hbefore hleads hfree
  obtain ⟨hmeta, -, hrevision, hdeleted⟩ := persistentBufferChange_fields change
  have htext : ∃ text, replayed.replayedText supply (RelationKernel.persistentBufferChange change) =
      .ok text ∧ (change.metadata.durability = .durable → after.text.toText = text.toText) ∧
      (change.metadata.durability = .volatile → text.toText = []) := by
    unfold replayedText
    rw [hmeta, hdeleted]
    by_cases hempty : change.deleted = true ∨ change.metadata.durability = .volatile
    · rw [if_pos (by simpa using hempty)]
      refine ⟨Text.empty, rfl, fun hd => ?_, fun _ => rfl⟩
      have hgone : after.deleted = true := by
        rcases hempty with hgone | hv
        · rw [← hleads.deleted, hgone]
        · rw [hv] at hd
          cases hd
      rw [hplain.deleted hgone]
      rfl
    · rw [not_or, Bool.not_eq_true] at hempty
      have hd : change.metadata.durability = .durable :=
        (RelationDurability.eq_durable_or_volatile _).resolve_right hempty.2
      have hsame : RelationKernel.persistentBufferChange change = change := by
        unfold RelationKernel.persistentBufferChange
        rw [if_neg hempty.2]
      have hcontent : ((replayed.get? change.metadata.id).elim Text.empty BufferState.text).toText =
          before.elim [] fun state => state.text.toText := by
        cases hget : replayed.get? change.metadata.id with
        | none =>
          rw [hget] at hbefore
          cases hbefore with
          | none => rfl
        | some p =>
          rw [hget] at hbefore
          cases hbefore with
          | @some _ l hmirrors =>
            have hl : l.metadata.durability = .durable := by
              rw [(hleads.moved l rfl).2.1, hd]
            exact (hmirrors.durable hl).2.symm
      obtain ⟨view, hview, hafter⟩ := hleads.text _ hcontent supply
      rw [if_neg (by simp [hempty.1, hd]), hsame, hview]
      exact ⟨view, rfl, fun _ => hafter.symm, fun hv => absurd hv hempty.2⟩
  obtain ⟨text, hreplayed, hcontent, hlost⟩ := htext
  refine ⟨⟨change.metadata, change.revision, text, change.deleted, 0⟩, ?_, ?_, ?_⟩
  · unfold replay
    rw [hrefuses, hreplayed]
    simp [hmeta, hrevision, hdeleted]
  · exact {
      metadata := hleads.metadata.symm
      deleted := hleads.deleted.symm
      plain := hplain
      durable := fun hd => ⟨hleads.revision.symm, hcontent (hleads.metadata ▸ hd)⟩
      volatile := fun hv => ⟨hlost (hleads.metadata ▸ hv), .inl hleads.revision.symm⟩ }
  · refine hnamed.insert ?_
    cases hget : replayed.get? change.metadata.id with
    | none =>
      rw [hget] at hbefore
      cases hbefore with
      | none => exact .inr ⟨rfl, hfree rfl⟩
    | some p =>
      rw [hget] at hbefore
      cases hbefore with
      | @some _ l hmirrors =>
        exact .inl ⟨p, rfl, hmirrors.metadata.symm.trans (hleads.moved l rfl).2.1⟩

end BufferStates

/-! ## Moves -/

/-- Two states of a buffer that differ in nothing that is persisted. -/
structure BufferState.Alike (a b : BufferState) : Prop where
  metadata : b.metadata = a.metadata
  revision : b.revision = a.revision
  text : b.text.toText = a.text.toText
  deleted : b.deleted = a.deleted

theorem BufferState.Alike.refl (a : BufferState) : a.Alike a := ⟨rfl, rfl, rfl, rfl⟩

theorem BufferState.Alike.plain {a b : BufferState} (h : a.Alike b) (ha : a.Plain) : b.Plain where
  zero hzero := by
    obtain ⟨htext, hdeleted⟩ := ha.zero (h.revision.symm.trans hzero)
    exact ⟨h.text.trans htext, h.deleted.trans hdeleted⟩
  deleted hdeleted := h.text.trans (ha.deleted (h.deleted.symm.trans hdeleted))

theorem BufferState.Mirrors.alike {p l l' : BufferState} (h : p.Mirrors l) (hl : l.Alike l') :
    p.Mirrors l' where
  metadata := hl.metadata.trans h.metadata
  deleted := hl.deleted.trans h.deleted
  plain := hl.plain h.plain
  durable hd := by
    rw [hl.metadata] at hd
    rw [hl.revision, hl.text]
    exact h.durable hd
  volatile hv := by
    rw [hl.metadata] at hv
    rw [hl.revision, hl.text, hl.deleted]
    exact h.volatile hv

theorem BufferState.Mirrors.alike_left {p q l : BufferState} (h : p.Mirrors l) (hp : p.Alike q) :
    q.Mirrors l where
  metadata := h.metadata.trans hp.metadata.symm
  deleted := h.deleted.trans hp.deleted.symm
  plain := h.plain
  durable hd := by
    rw [hp.revision, hp.text]
    exact h.durable hd
  volatile hv := by
    rw [hp.revision, hp.text]
    exact h.volatile hv

namespace BufferStates

variable {replayed a b c : BufferStates} {changes : List BufferChange}

/-- **How changes lead from some buffers to others**, one after the other; what is not persisted may be
anything. -/
inductive Moves (a : BufferStates) : List BufferChange → BufferStates → Prop where
  | refl : Moves a [] a
  | alike {changes : List BufferChange} {b c : BufferStates} (h : Moves a changes b)
      (halike : ∀ id, Option.Rel BufferState.Alike (b.get? id) (c.get? id)) : Moves a changes c
  | change {changes : List BufferChange} {b : BufferStates} (h : Moves a changes b)
      {change : BufferChange} {after : BufferState}
      (hleads : change.Leads (b.get? change.metadata.id) after) (hplain : after.Plain)
      (hfree : b.get? change.metadata.id = none → ∀ id state, b.get? id = some state →
        state.metadata.name ≠ change.metadata.name) : Moves a (changes ++ [change]) (b.insert after)

variable {supply : Supply} {change : BufferChange}

theorem replayAll_concat {states' states'' : BufferStates}
    (hlast : states'.replay supply change = .ok states'') :
    ∀ {changes : List BufferChange} {states : BufferStates},
      states.replayAll supply changes = .ok states' →
        states.replayAll supply (changes ++ [change]) = .ok states''
  | [], states, h => by
    obtain rfl := ok.inj h
    rw [nil_append]
    unfold replayAll
    rw [hlast]
    rfl
  | first :: changes, states, h => by
    rw [cons_append]
    unfold replayAll at h ⊢
    split at h
    · cases h
    exact replayAll_concat hlast h

/-- **The mirror moves along.** -/
theorem Moves.mirrors (supply : Supply) (h : Moves a changes b) (hmirrors : replayed.Mirrors a)
    (hnamed : replayed.Named) : ∃ replayed',
      replayed.replayAll supply (changes.map RelationKernel.persistentBufferChange) = .ok replayed' ∧
      replayed'.Mirrors b ∧ replayed'.Named := by
  induction h with
  | refl => exact ⟨replayed, rfl, hmirrors, hnamed⟩
  | @alike changes b c _ halike ih =>
    obtain ⟨replayed', hreplay, hmirrors', hnamed'⟩ := ih
    refine ⟨replayed', hreplay, fun id => ?_, hnamed'⟩
    have hid := hmirrors' id
    have hsame := halike id
    generalize replayed'.get? id = p at hid
    generalize b.get? id = l at hid hsame
    generalize c.get? id = l' at hsame
    cases hsame with
    | none => exact hid
    | some hl =>
      cases hid with
      | some hp => exact .some (hp.alike hl)
  | @change changes b _ change after hleads hplain hfree ih =>
    obtain ⟨replayed', hreplay, hmirrors', hnamed'⟩ := ih
    have hfree' : b.get? change.metadata.id = none → replayed'.named change.metadata.name = none := by
      intro hnone
      refine hnamed'.named_eq_none.mpr fun id p hp => ?_
      obtain ⟨l, hl, hpl⟩ := hmirrors'.of_replayed hp
      rw [← hpl.metadata]
      exact hfree hnone id l hl
    obtain ⟨p, hp, hpafter, hnamed''⟩ :=
      replay_persistent supply hnamed' (hmirrors' _) hleads hplain hfree'
    refine ⟨replayed'.insert p, ?_, hmirrors'.insert hpafter, hnamed''⟩
    rw [map_append]
    exact replayAll_concat hp hreplay

/-! ### Replay reads nothing else -/

theorem replay_eq_ok {states states' : BufferStates}
    (h : states.replay supply change = .ok states') : ∃ text, states.refuses change = false ∧
      states.replayedText supply change = .ok text ∧
      states' = states.insert ⟨change.metadata, change.revision, text, change.deleted, 0⟩ := by
  unfold replay at h
  split at h
  · cases h
  rename_i hrefuses
  split at h
  · cases h
  rename_i text htext
  exact ⟨text, Bool.eq_false_iff.mpr hrefuses, htext, (ok.inj h).symm⟩

theorem refuses_alike
    (hget : Option.Rel BufferState.Alike (a.get? change.metadata.id) (b.get? change.metadata.id))
    (hfree : a.get? change.metadata.id = none → b.named change.metadata.name = none)
    (h : a.refuses change = false) : b.refuses change = false := by
  unfold refuses at h ⊢
  cases ha : a.get? change.metadata.id with
  | none =>
    rw [ha] at hget h
    have hb : b.get? change.metadata.id = none := by
      generalize b.get? change.metadata.id = q at hget
      cases hget with
      | none => rfl
    have hname := hfree ha
    rw [hb, hname]
    simp only [Option.isNone_none, Bool.true_and, Bool.or_eq_false_iff] at h
    simp only [Option.isNone_none, Bool.true_and, Option.isSome_none, Bool.or_eq_false_iff]
    exact ⟨h.1, trivial⟩
  | some p =>
    rw [ha] at hget h
    obtain ⟨q, hb, halike⟩ : ∃ q, b.get? change.metadata.id = some q ∧ p.Alike q := by
      generalize b.get? change.metadata.id = q at hget
      cases hget with
      | some halike => exact ⟨_, rfl, halike⟩
    rw [hb]
    simp only [Option.elim_some, Option.isNone_some, Option.any_some, Bool.false_and, Bool.or_false,
      isEmptyCreation, halike.revision, halike.metadata, halike.deleted] at h ⊢
    exact h

/-- **Replay depends on what is persisted of the buffer, and on whether its name is free.** -/
theorem replay_alike (supply' : Supply) {a' : BufferStates}
    (hget : Option.Rel BufferState.Alike (a.get? change.metadata.id) (b.get? change.metadata.id))
    (hfree : a.get? change.metadata.id = none → b.named change.metadata.name = none)
    (h : a.replay supply change = .ok a') : ∃ text text',
      a' = a.insert ⟨change.metadata, change.revision, text, change.deleted, 0⟩ ∧
      b.refuses change = false ∧ b.replayedText supply' change = .ok text' ∧
      b.replay supply' change =
        .ok (b.insert ⟨change.metadata, change.revision, text', change.deleted, 0⟩) ∧
      text'.toText = text.toText := by
  obtain ⟨text, hrefuses, htext, rfl⟩ := replay_eq_ok h
  have hrefuses' := refuses_alike hget hfree hrefuses
  obtain ⟨text', htext', hcontent⟩ : ∃ text', b.replayedText supply' change = .ok text' ∧
      text'.toText = text.toText := by
    unfold replayedText at htext ⊢
    split at htext
    · next hempty =>
      rw [if_pos hempty]
      exact ⟨Text.empty, rfl, by rw [ok.inj htext]⟩
    rename_i hkept
    rw [if_neg hkept]
    split at htext
    · cases htext
    rename_i view hview
    obtain rfl := ok.inj htext
    have hsame : ((b.get? change.metadata.id).elim Text.empty BufferState.text).toText =
        ((a.get? change.metadata.id).elim Text.empty BufferState.text).toText := by
      generalize a.get? change.metadata.id = p at hget
      generalize b.get? change.metadata.id = q at hget
      cases hget with
      | none => rfl
      | some halike => exact halike.text
    obtain ⟨view', hview', hcontent⟩ := Delta.applyAll_congr supply' hsame hview
    refine ⟨view', ?_, hcontent⟩
    unfold Delta.apply
    rw [hview']
  refine ⟨text, text', rfl, hrefuses', htext', ?_, hcontent⟩
  unfold replay
  rw [hrefuses', htext']
  rfl

theorem option_rel_alike_refl (p : Option BufferState) : Option.Rel BufferState.Alike p p := by
  cases p with
  | none => exact .none
  | some p => exact .some (.refl p)

/-- Buffers that differ in nothing that is persisted, each with a name of its own. -/
structure Same (a b : BufferStates) : Prop where
  alike : ∀ id, Option.Rel BufferState.Alike (a.get? id) (b.get? id)
  left : a.Named
  right : b.Named

theorem Same.refl (h : a.Named) : Same a a := ⟨fun _ => option_rel_alike_refl _, h, h⟩

theorem Same.mirrors (h : Same a b) {live : BufferStates} (hmirrors : a.Mirrors live) :
    b.Mirrors live := by
  intro id
  have hid := hmirrors id
  have hsame := h.alike id
  generalize a.get? id = p at hid hsame
  generalize b.get? id = q at hsame
  generalize live.get? id = l at hid
  cases hsame with
  | none => exact hid
  | some halike =>
    cases hid with
    | some hp => exact .some (hp.alike_left halike)

theorem Same.replay (h : Same a b) (supply' : Supply)
    {a' : BufferStates} (hreplay : a.replay supply change = .ok a') :
    ∃ b', b.replay supply' change = .ok b' ∧ Same a' b' := by
  obtain ⟨-, hrefuses, -⟩ := replay_eq_ok hreplay
  have hname : a.get? change.metadata.id = none → a.named change.metadata.name = none := by
    intro hnone
    unfold refuses at hrefuses
    rw [hnone] at hrefuses
    simp only [Option.isNone_none, Bool.true_and, Bool.or_eq_false_iff, Option.isSome_eq_false_iff,
      Option.isNone_iff_eq_none] at hrefuses
    exact hrefuses.2
  have hmeta : ∀ p, a.get? change.metadata.id = some p → p.metadata = change.metadata := by
    intro p hp
    unfold refuses at hrefuses
    rw [hp] at hrefuses
    simp only [Option.any_some, Bool.or_eq_false_iff, decide_eq_false_iff_not, not_not] at hrefuses
    exact hrefuses.1.1.2.1
  have hfree : a.get? change.metadata.id = none → b.named change.metadata.name = none := by
    intro hnone
    refine h.right.named_eq_none.mpr fun id q hq => ?_
    have hid := h.alike id
    rw [hq] at hid
    obtain ⟨p, hp, halike⟩ : ∃ p, a.get? id = some p ∧ p.Alike q := by
      generalize a.get? id = p at hid
      cases hid with
      | some halike => exact ⟨_, rfl, halike⟩
    rw [halike.metadata]
    exact h.left.named_eq_none.mp (hname hnone) id p hp
  obtain ⟨text, text', rfl, -, -, hb, hcontent⟩ := replay_alike supply' (h.alike _) hfree hreplay
  refine ⟨_, hb, fun id => ?_, h.left.insert ?_, h.right.insert ?_⟩
  · by_cases hid : id = change.metadata.id
    · have hself := a.get?_insert_self ⟨change.metadata, change.revision, text, change.deleted, 0⟩
      have hself' := b.get?_insert_self ⟨change.metadata, change.revision, text', change.deleted, 0⟩
      rw [hid, hself, hself']
      exact .some ⟨rfl, rfl, hcontent, rfl⟩
    · rw [a.get?_insert_of_ne _ hid, b.get?_insert_of_ne _ hid]
      exact h.alike id
  · dsimp only
    rcases hold : a.get? change.metadata.id with _ | old
    · exact .inr ⟨rfl, hname hold⟩
    exact .inl ⟨old, rfl, hmeta old hold⟩
  · have hid := h.alike change.metadata.id
    dsimp only
    cases hold : a.get? change.metadata.id with
    | none =>
      rw [hold] at hid
      refine .inr ⟨?_, hfree hold⟩
      generalize b.get? change.metadata.id = q' at hid
      cases hid with
      | none => rfl
    | some old =>
      rw [hold] at hid
      refine .inl ?_
      generalize b.get? change.metadata.id = q' at hid
      cases hid with
      | @some _ q' hlike => exact ⟨q', rfl, hlike.metadata.trans (hmeta old hold)⟩

theorem Same.replayAll (supply' : Supply) : ∀ {changes : List BufferChange}
    {a b a' : BufferStates}, Same a b → a.replayAll supply changes = .ok a' →
      ∃ b', b.replayAll supply' changes = .ok b' ∧ Same a' b'
  | [], a, b, a', h, hreplay => by
    obtain rfl := ok.inj hreplay
    exact ⟨b, rfl, h⟩
  | change :: changes, a, b, a', h, hreplay => by
    unfold BufferStates.replayAll at hreplay ⊢
    split at hreplay
    · cases hreplay
    rename_i a₁ hfirst
    obtain ⟨b₁, hfirst', hsame⟩ := h.replay supply' hfirst
    rw [hfirst']
    exact Same.replayAll supply' hsame hreplay

/-! ### The moves of a commit -/

/-- Buffers with names of their own, none of which has text that could not be there. -/
structure Tidy (states : BufferStates) : Prop where
  named : states.Named
  plain : ∀ id state, states.get? id = some state → state.Plain

theorem tidy_empty : empty.Tidy := ⟨named_empty, nofun⟩

theorem Tidy.insert {states : BufferStates} (h : states.Tidy) {state : BufferState}
    (hplain : state.Plain)
    (hstate : (∃ old, states.get? state.metadata.id = some old ∧ old.metadata = state.metadata) ∨
      states.get? state.metadata.id = none ∧ states.named state.metadata.name = none) :
    (states.insert state).Tidy := by
  refine ⟨h.named.insert hstate, fun id other hother => ?_⟩
  by_cases hid : id = state.metadata.id
  · subst hid
    rw [states.get?_insert_self] at hother
    exact some.inj hother ▸ hplain
  · rw [states.get?_insert_of_ne state hid] at hother
    exact h.plain id other hother

/-- A state in the place of one like it. -/
theorem alike_insert {states : BufferStates} {state old : BufferState}
    (hold : states.get? state.metadata.id = some old) (halike : old.Alike state) :
    ∀ id, Option.Rel BufferState.Alike (states.get? id) ((states.insert state).get? id) := by
  intro id
  by_cases hid : id = state.metadata.id
  · subst hid
    rw [hold, states.get?_insert_self]
    exact .some halike
  · rw [states.get?_insert_of_ne state hid]
    cases states.get? id with
    | none => exact .none
    | some other => exact .some (.refl other)

/-- The buffers that are new have ids and names that no relation has. -/
def NewApart (relations : List RelationMetadata) (before after : BufferStates) : Prop :=
  ∀ id state, after.get? id = some state → before.get? id = none →
    ∀ m ∈ relations, m.id ≠ id ∧ m.name ≠ state.metadata.name

theorem NewApart.trans {relations : List RelationMetadata} (h : NewApart relations a b)
    (h' : NewApart relations b c) (hfollows : b.Follows c) : NewApart relations a c := by
  intro id state hstate hnone
  rcases hb : b.get? id with _ | state'
  · exact h' id state hstate hb
  obtain ⟨state'', hstate'', hlater⟩ := hfollows id state' hb
  obtain rfl := some.inj (hstate.symm.trans hstate'')
  rw [hlater.metadata]
  exact h id state' hb hnone

end BufferStates

namespace Materializing

variable {relations : List RelationMetadata} {before base : BufferStates} {s s' : Materializing}
  {id : Identity} {pending : PendingBuffer} {supply : Supply}

/-- The state that the creation of a buffer publishes. -/
theorem leads_created {result : BufferResult} {state : BufferState}
    (hpending : pending.Sound base base id) (hbase : pending.base = none)
    (hcreated : s.created relations id pending = .ok result)
    (hmetadata : state.metadata = pending.metadata) (htext : state.text = result.text)
    (hdeleted : state.deleted = pending.deleted)
    (hrevision : state.revision = result.baseRevision +
      (if pending.compact || isEmptyCreation pending result then 0 else 1)) :
    (⟨pending.metadata, result.baseRevision, state.revision, result.delta, pending.deleted⟩ :
      BufferChange).Leads none state ∧ state.Plain ∧ pending.compact = false := by
  obtain ⟨-, -, -, htext', hrev, hdelta⟩ := created_cases hcreated
  have hcompact : pending.compact = false := by
    refine Bool.eq_false_iff.mpr fun hcompact => ?_
    obtain ⟨-, -, old, hold, -⟩ := hpending.compact hcompact
    cases hbase.symm.trans hold
  rw [htext'] at htext
  rw [hcompact, Bool.false_or, hrev, Nat.zero_add] at hrevision
  have hcreation : state.revision = 0 → result.delta.isEmpty = true ∧ pending.deleted = false := by
    intro hzero
    rw [hzero] at hrevision
    split at hrevision
    · next hempty =>
      unfold isEmptyCreation at hempty
      rw [Bool.and_eq_true, Bool.and_eq_true, Bool.not_eq_true'] at hempty
      exact ⟨hempty.1.2, hempty.2⟩
    · cases hrevision
  refine ⟨?_, ?_, hcompact⟩
  · exact {
      metadata := hmetadata.symm
      revision := rfl
      deleted := hdeleted.symm
      base := hrev
      text := htext ▸ hdelta.makes (Text.shows_empty _)
      moved := nofun
      fresh := fun _ => hcreation }
  refine ⟨fun hzero => ?_, fun hgone => ?_⟩
  · obtain ⟨hempty, hkept⟩ := hcreation hzero
    rw [htext, hdeleted]
    exact ⟨hdelta.toText_eq_nil hempty, hkept⟩
  · rw [htext]
    exact hpending.gone (hdeleted.symm.trans hgone)

/-- The state that an edit publishes. -/
theorem leads_edited {result : BufferResult} {budget : DeltaBudget} {state old : BufferState}
    (hpending : pending.Sound base base id) (hfollows : base.Follows s.states)
    (hbase : pending.base = some old) (hcompact : pending.compact = false)
    (hedited : s.edited supply id pending old = .ok (result, budget))
    (hmetadata : state.metadata = pending.metadata) (htext : state.text = result.text)
    (hdeleted : state.deleted = pending.deleted)
    (hrevision : state.revision = result.baseRevision + 1) :
    (⟨pending.metadata, result.baseRevision, state.revision, result.delta, pending.deleted⟩ :
      BufferChange).Leads (s.states.get? id) state ∧ state.Plain := by
  obtain ⟨latest, hlatest, hkept, hbaseRev, hcases⟩ := edited_cases hedited
  have hold : base.get? id = some old := hpending.base_eq.symm.trans hbase
  obtain ⟨latest', hlatest', hgrown⟩ := hfollows id old hold
  obtain rfl := some.inj (hlatest.symm.trans hlatest')
  have hsame : latest.metadata = pending.metadata := by
    rw [hgrown.metadata, hpending.metadata old hbase]
  have hmakes : result.delta.Makes latest.text.toText result.text.toText ∧
      (pending.deleted = true → result.text.toText = []) := by
    rcases hcases with ⟨hc, -⟩ | ⟨-, ⟨hrev, hresult, hdelta⟩ | ⟨hnot, hresult, hnew⟩ | ⟨hnot, happly⟩⟩
    · exact absurd (hcompact.symm.trans hc) nofun
    · rw [hresult, (hgrown.same hrev).1]
      exact ⟨hdelta.makes (hpending.agrees old hold).shows, hpending.gone⟩
    · rw [hresult]
      exact ⟨Delta.makes_whole hnew, fun hgone => absurd (hgone.symm.trans hnot) nofun⟩
    · exact ⟨Delta.makes_of_apply happly, fun hgone => absurd (hgone.symm.trans hnot) nofun⟩
  refine ⟨?_, fun hzero => absurd (hrevision.symm.trans hzero) (Nat.succ_ne_zero _), fun hgone => ?_⟩
  · rw [hlatest]
    refine ⟨hmetadata.symm, rfl, hdeleted.symm, hbaseRev, ?_, fun previous hprevious => ?_, nofun⟩
    · rw [htext]
      exact hmakes.1
    · obtain rfl := some.inj hprevious
      refine ⟨?_, hsame, hkept⟩
      change latest.revision < state.revision
      omega
  · rw [htext]
    exact hmakes.2 (hdeleted.symm.trans hgone)

/-- **A write moves the buffers.** -/
theorem moves_write (hpending : pending.Sound base base id) (hfollows : base.Follows s.states)
    (htidy : s.states.Tidy) (hmoves : before.Moves s.changes s.states)
    (h : s.write relations supply id pending = .ok s') :
    before.Moves s'.changes s'.states ∧ s'.states.Tidy ∧
      BufferStates.NewApart relations s.states s'.states := by
  obtain ⟨result, hpublish, hresult⟩ := write_cases h
  rcases publish_cases hpublish with ⟨-, -, -, -, hstates, hchanges⟩ |
    ⟨state, hstates, hmetadata, htext, hdeleted, hrevision, hchanges⟩
  · rw [hstates, hchanges]
    exact ⟨hmoves, htidy, fun id' state hstate hnone => nomatch hnone.symm.trans hstate⟩
  · have hkey : state.metadata.id = id := by rw [hmetadata, hpending.key]
    rw [hstates, hchanges]
    rcases hresult with ⟨hbase, hcreated⟩ | ⟨old, budget, hbase, hedited⟩
    · obtain ⟨hleads, hplain, hcompact⟩ :=
        leads_created hpending hbase hcreated hmetadata htext hdeleted hrevision
      obtain ⟨hnone, hfree, happart, -⟩ := created_cases hcreated
      rw [hcompact, if_neg nofun]
      refine ⟨hmoves.change ?_ hplain fun _ => ?_, htidy.insert hplain (.inr ?_), ?_⟩
      · rwa [hpending.key, hnone]
      · exact htidy.named.named_eq_none.mp hfree
      · rw [hkey, hmetadata]
        exact ⟨hnone, hfree⟩
      · intro id' state' hstate' hnone'
        by_cases hid : id' = state.metadata.id
        · subst hid
          rw [s.states.get?_insert_self] at hstate'
          rwa [← some.inj hstate', hkey, hmetadata]
        · rw [s.states.get?_insert_of_ne state hid] at hstate'
          cases hnone'.symm.trans hstate'
    · obtain ⟨latest, hlatest, hkept, hbaseRev, hcases⟩ := edited_cases hedited
      obtain ⟨latest', hlatest', hgrown⟩ := hfollows id old (hpending.base_eq.symm.trans hbase)
      obtain rfl := some.inj (hlatest.symm.trans hlatest')
      have hsame : state.metadata = latest.metadata := by
        rw [hmetadata, hgrown.metadata, hpending.metadata old hbase]
      have hold : s.states.get? state.metadata.id = some latest := by rw [hkey, hlatest]
      have hapart : BufferStates.NewApart relations s.states (s.states.insert state) := by
        intro id' state' hstate' hnone'
        by_cases hid : id' = state.metadata.id
        · subst hid
          cases hnone'.symm.trans hold
        · rw [s.states.get?_insert_of_ne state hid] at hstate'
          cases hnone'.symm.trans hstate'
      have hcreation : isEmptyCreation pending result = false := by
        unfold isEmptyCreation
        rw [hbase]
        rfl
      rw [hcreation, Bool.or_false] at hrevision
      by_cases hcompact : pending.compact = true
      · -- a compaction writes nothing, and its state is like the one it replaces
        have halike : latest.Alike state := by
          obtain ⟨-, hnot, old', hold', hcontent⟩ := hpending.compact hcompact
          obtain rfl := some.inj (hbase.symm.trans hold')
          rcases hcases with ⟨-, hrev, hresult, -⟩ | ⟨hc, -⟩
          · refine ⟨hsame, ?_, ?_, by rw [hdeleted, hnot, hkept]⟩
            · rw [hrevision, if_pos hcompact, hbaseRev, Nat.add_zero]
            · rw [htext, hresult, hcontent, (hgrown.same hrev).1]
          · exact absurd (hc.symm.trans hcompact) nofun
        rw [if_pos hcompact]
        exact ⟨hmoves.alike (BufferStates.alike_insert hold halike),
          htidy.insert (halike.plain (htidy.plain id latest hlatest))
            (.inl ⟨latest, hold, hsame.symm⟩),
          hapart⟩
      · have hcompact' := Bool.eq_false_iff.mpr hcompact
        rw [if_neg hcompact] at hrevision ⊢
        obtain ⟨hleads, hplain⟩ :=
          leads_edited hpending hfollows hbase hcompact' hedited hmetadata htext hdeleted hrevision
        refine ⟨hmoves.change ?_ hplain fun hnone => ?_,
          htidy.insert hplain (.inl ⟨latest, hold, hsame.symm⟩), hapart⟩
        · rwa [hpending.key]
        · rw [hpending.key] at hnone
          cases hnone.symm.trans hlatest

theorem moves_writeAll {tx : BufferTransaction} (htx : tx.Sound tx.base) :
    ∀ {writes : List (Identity × PendingBuffer)} {s s' : Materializing},
      (∀ e ∈ writes, tx.bufferWrites.get? e.1 = some e.2) → tx.base.Follows s.states →
      s.states.Tidy → before.Moves s.changes s.states → s.writeAll relations supply writes = .ok s' →
      before.Moves s'.changes s'.states ∧ s'.states.Tidy ∧
        BufferStates.NewApart relations s.states s'.states
  | [], s, s', _, _, htidy, hmoves, h => by
    rw [← ok.inj h]
    exact ⟨hmoves, htidy, fun _ _ hstate hnone => nomatch hnone.symm.trans hstate⟩
  | (id, pending) :: writes, s, s', hwrites, hfollows, htidy, hmoves, h => by
    unfold writeAll at h
    split at h
    · cases h
    rename_i s₁ hwrite
    have hpending := htx id pending (hwrites _ mem_cons_self)
    obtain ⟨hmoves₁, htidy₁, hapart⟩ := moves_write hpending hfollows htidy hmoves hwrite
    have hstep := (follows_write (htx.alone id pending (hwrites _ mem_cons_self)) hfollows nofun
      nofun hwrite).1
    have hrest := fun e he => hwrites e (mem_cons_of_mem _ he)
    obtain ⟨hmoves', htidy', hapart'⟩ :=
      moves_writeAll htx hrest (hfollows.trans hstep) htidy₁ hmoves₁ h
    have hlater := (follows_writeAll htx.alone nofun hrest (hfollows.trans hstep) nofun h).1
    exact ⟨hmoves', htidy', hapart.trans hapart' hlater⟩

/-- Every write adds one change or none. -/
theorem ids_writeAll : ∀ {writes : List (Identity × PendingBuffer)} {s s' : Materializing},
    (∀ e ∈ writes, e.2.metadata.id = e.1) → s.writeAll relations supply writes = .ok s' →
      ∃ new : List Identity, new.Sublist (writes.map Prod.fst) ∧
        (s'.changes.map fun change => change.metadata.id) =
          (s.changes.map fun change => change.metadata.id) ++ new
  | [], s, s', _, h => by
    rw [← ok.inj h]
    exact ⟨[], .slnil, (append_nil _).symm⟩
  | (id, pending) :: writes, s, s', hkeys, h => by
    obtain ⟨hkey, hrest⟩ := forall_mem_cons.mp hkeys
    unfold writeAll at h
    split at h
    · cases h
    rename_i s₁ hwrite
    obtain ⟨new, hsub, hids⟩ := ids_writeAll hrest h
    obtain ⟨result, hpublish, -⟩ := write_cases hwrite
    have hfirst : s₁.changes = s.changes ∨ ∃ change : BufferChange, change.metadata.id = id ∧
        s₁.changes = s.changes ++ [change] := by
      rcases publish_cases hpublish with ⟨-, -, -, -, -, hchanges⟩ | ⟨_, -, -, -, -, -, hchanges⟩
      · exact .inl hchanges
      · split at hchanges
        · exact .inl hchanges
        · exact .inr ⟨_, hkey, hchanges⟩
    rcases hfirst with heq | ⟨change, hid, heq⟩
    · exact ⟨new, hsub.cons _, by rw [hids, heq]⟩
    · refine ⟨id :: new, hsub.cons_cons _, ?_⟩
      rw [hids, heq, map_append, map_singleton, hid, append_assoc,
        singleton_append]

end Materializing

/-- A commit changes a buffer once. -/
theorem nodup_materializeBuffers {relations : List RelationMetadata} {live current next : BufferStates}
    {tx : BufferTransaction} {supply : Supply} {changes : List BufferChange} (htx : tx.Sound live)
    (h : materializeBuffers relations current supply tx = .ok (next, changes)) :
    (changes.map fun change => change.metadata.id).Nodup := by
  unfold materializeBuffers at h
  split at h
  · cases h
  rename_i s hwrites
  obtain ⟨rfl, rfl⟩ := Prod.mk.inj (ok.inj h)
  obtain ⟨new, hsub, hids⟩ := Materializing.ids_writeAll
    (fun e he => (htx e.1 e.2 (get?_eq_some.mpr he)).key) hwrites
  rw [hids, map_nil, nil_append]
  exact (tx.bufferWrites.pairwise_keys.imp ne_of_lt).sublist hsub

/-- **A commit moves the buffers.** -/
theorem moves_materializeBuffers {relations : List RelationMetadata} {current next : BufferStates}
    {tx : BufferTransaction} {supply : Supply} {changes : List BufferChange} (htx : tx.Sound tx.base)
    (hfollows : tx.base.Follows current) (htidy : current.Tidy)
    (h : materializeBuffers relations current supply tx = .ok (next, changes)) :
    current.Moves changes next ∧ next.Tidy ∧ BufferStates.NewApart relations current next := by
  unfold materializeBuffers at h
  split at h
  · cases h
  rename_i s hwrites
  obtain ⟨rfl, rfl⟩ := Prod.mk.inj (ok.inj h)
  exact Materializing.moves_writeAll htx (fun e he => get?_eq_some.mpr he) hfollows htidy
    .refl hwrites

/-! ## The moves of a staged commit -/

namespace BufferStates

variable {relations : List RelationMetadata} {current staged : BufferStates}
  {changes : List BufferChange}

/-- A buffer that is staged at revision zero has been created without text. -/
theorem stagedChanges_fresh (htidy : staged.Tidy)
    (h : stagedChanges relations current staged = .ok changes)
    {change : BufferChange} (hchange : change ∈ changes)
    (hnone : current.get? change.metadata.id = none) (hzero : change.revision = 0) :
    change.delta.isEmpty = true ∧ change.deleted = false := by
  unfold stagedChanges at h
  split at h
  · cases h
  obtain ⟨state, hmem, hstaged⟩ := (stagedChangesOf_spec h).1 change hchange
  obtain ⟨entry, hentry, hstate⟩ := mem_map.mp hmem
  obtain ⟨hmetadata, hrevision, hdeleted, -, hdelta, -⟩ := stagedChange_some hstaged
  have hplain := htidy.plain entry.1 entry.2 (get?_eq_some.mpr hentry)
  rw [hstate] at hplain
  obtain ⟨htext, hkept⟩ := hplain.zero (hrevision.symm.trans hzero)
  have hempty : current.textOf state.metadata.id = Text.empty := by
    unfold textOf
    rw [← hmetadata, hnone]
    rfl
  rw [hempty] at hdelta
  exact ⟨by rw [hdelta.eq_empty rfl htext]; rfl, hdeleted.trans hkept⟩

/-- A staged change leads from the live state of a buffer to the staged one. -/
theorem leads_staged (hnet : NetBuffers current staged changes) (hfollows : current.Follows staged)
    (htidy : staged.Tidy) (h : stagedChanges relations current staged = .ok changes)
    {change : BufferChange} (hchange : change ∈ changes) :
    ∃ state, staged.get? change.metadata.id = some state ∧ change.metadata = state.metadata ∧
      change.Leads (current.get? change.metadata.id) state := by
  obtain ⟨state, hstate, hmetadata, hrevision, hdeleted, hbase, htext⟩ := hnet.sound change hchange
  refine ⟨state, hstate, hmetadata, hmetadata, hrevision, hdeleted, hbase, ?_,
    fun previous hprevious => ?_,
    stagedChanges_fresh htidy h hchange⟩
  · obtain ⟨text, happly, hcontent⟩ := htext ⟨0, 0⟩
    have hmakes := Delta.makes_of_apply happly
    rw [hcontent] at hmakes
    rcases hprevious : current.get? change.metadata.id with _ | previous
    · rwa [hprevious] at hmakes
    rwa [hprevious] at hmakes
  · obtain ⟨state', hstate', hlater⟩ := hfollows _ previous hprevious
    obtain rfl := some.inj (hstate.symm.trans hstate')
    have hlt := hnet.moved change hchange previous hprevious
    refine ⟨hlt, hlater.metadata.symm.trans hmetadata.symm, Bool.eq_false_iff.mpr fun hgone => ?_⟩
    have hfrozen := hlater.frozen hgone
    omega

/-- The staged changes, one after the other; those that are done are in place already. -/
theorem moves_staged_from (hnet : NetBuffers current staged changes)
    (hfollows : current.Follows staged)
    (htidy : staged.Tidy) (h : stagedChanges relations current staged = .ok changes) :
    ∀ (rest done : List BufferChange) (states : BufferStates), changes = done ++ rest →
      current.Moves done states →
      (∀ id, (∃ c ∈ done, c.metadata.id = id) → states.get? id = staged.get? id) →
      (∀ id, (∀ c ∈ done, c.metadata.id ≠ id) → states.get? id = current.get? id) →
      current.Moves changes staged
  | [], done, states, hsplit, hmoves, hdone, hother => by
    rw [append_nil] at hsplit
    subst hsplit
    refine hmoves.alike fun id => ?_
    by_cases hid : ∃ c ∈ changes, c.metadata.id = id
    · rw [hdone id hid]
      cases staged.get? id with
      | none => exact .none
      | some state => exact .some (.refl state)
    push Not at hid
    rw [hother id hid]
    cases hstate : staged.get? id with
    | none =>
      rcases hprevious : current.get? id with _ | previous
      · exact .none
      obtain ⟨state, hsome, -⟩ := hfollows id previous hprevious
      cases hstate.symm.trans hsome
    | some state =>
      obtain ⟨previous, hprevious, hmetadata, hrevision, htext, hdeleted⟩ :=
        hnet.complete id state hstate hid
      rw [hprevious]
      exact .some ⟨hmetadata.symm, hrevision.symm, htext.symm, hdeleted.symm⟩
  | change :: rest, done, states, hsplit, hmoves, hdone, hother => by
    have hmem : change ∈ changes := by
      rw [hsplit]
      exact mem_append_right _ mem_cons_self
    obtain ⟨state, hstate, hmetadata, hleads⟩ := leads_staged hnet hfollows htidy h hmem
    have hnew : ∀ c ∈ done, c.metadata.id ≠ change.metadata.id := by
      intro c hc
      have hordered := hnet.ordered
      rw [hsplit] at hordered
      exact ((pairwise_append.mp hordered).2.2 c hc change mem_cons_self).ne
    have hkey : state.metadata.id = change.metadata.id := by rw [hmetadata]
    -- every buffer so far is one of the staged ones, with the same metadata
    have hamong : ∀ id other, states.get? id = some other →
        ∃ other', staged.get? id = some other' ∧ other'.metadata = other.metadata := by
      intro id other hget
      by_cases hid : ∃ c ∈ done, c.metadata.id = id
      · exact ⟨other, (hdone id hid).symm.trans hget, rfl⟩
      · push Not at hid
        obtain ⟨other', hother', hlater⟩ := hfollows id other ((hother id hid).symm.trans hget)
        exact ⟨other', hother', hlater.metadata⟩
    refine moves_staged_from hnet hfollows htidy h rest (done ++ [change]) (states.insert state) ?_
      (hmoves.change ?_ (htidy.plain _ state hstate) ?_) ?_ ?_
    · rw [hsplit, append_assoc, singleton_append]
    · rwa [hother _ hnew]
    · intro hnone id other hget hname
      obtain ⟨other', hother', hsame⟩ := hamong id other hget
      have hid := htidy.named.unique hstate hother' (by rw [hsame, hname, hmetadata])
      rw [hid, hnone] at hget
      cases hget
    · rintro id ⟨c, hc, rfl⟩
      by_cases hid : c.metadata.id = change.metadata.id
      · rw [hid, hstate, ← hkey, states.get?_insert_self]
      rw [states.get?_insert_of_ne state (hkey ▸ hid)]
      refine hdone _ ⟨c, ?_, rfl⟩
      rcases mem_append.mp hc with hc | hc
      · exact hc
      · rw [mem_singleton.mp hc] at hid
        exact absurd rfl hid
    · intro id hid
      have hne : id ≠ change.metadata.id :=
        (hid change (mem_append_right _ (mem_singleton_self _))).symm
      rw [states.get?_insert_of_ne state (hkey ▸ hne)]
      exact hother id fun c hc => hid c (mem_append_left _ hc)

/-- **A staged commit moves the buffers.** -/
theorem moves_staged (hfollows : current.Follows staged) (hagrees : current.AgreesWith staged)
    (htidy : staged.Tidy) (h : stagedChanges relations current staged = .ok changes) :
    current.Moves changes staged :=
  moves_staged_from (stagedChanges_spec hfollows hagrees h) hfollows htidy h changes [] current
    (nil_append _).symm .refl (nofun) fun _ _ => rfl

/-! ## Restoring -/

/-- **How a persisted buffer comes back.** -/
structure Restores (record : PersistedBufferState) (l : BufferState) : Prop where
  metadata : l.metadata = record.metadata
  deleted : l.deleted = record.deleted
  valid : record.isInvalid = false
  /-- The text of a volatile buffer is lost, and its number is not used again. -/
  lost : record.metadata.durability = .volatile ∧ record.deleted = false ∧ record.revision ≠ 0 →
    l.revision = record.revision + 1 ∧ l.text.toText = []
  kept : ¬(record.metadata.durability = .volatile ∧ record.deleted = false ∧ record.revision ≠ 0) →
    l.revision = record.revision ∧ l.text.toText = record.text

variable {record : PersistedBufferState}

theorem restored_spec {supply : Supply} {revision : ℕ} {text : Text}
    (hvalid : record.isInvalid = false) (h : record.restored supply = .ok (revision, text)) :
    Restores record ⟨record.metadata, revision, text, record.deleted, 0⟩ := by
  unfold PersistedBufferState.restored at h
  split at h
  · next hlost =>
    split at h
    · cases h
    rename_i hadd
    obtain ⟨rfl, rfl⟩ := Prod.mk.inj (ok.inj h)
    refine ⟨rfl, rfl, hvalid, fun _ => ⟨?_, rfl⟩, fun hnot => absurd hlost hnot⟩
    unfold Materializing.checkedAdd at hadd
    split at hadd
    · exact (some.inj hadd).symm
    · cases hadd
  · next hkept =>
    obtain ⟨rfl, rfl⟩ := Prod.mk.inj (ok.inj h)
    exact ⟨rfl, rfl, hvalid, fun hlost => absurd hlost hkept, fun _ => ⟨rfl, Text.toText_fromText _ _⟩⟩

theorem Restores.plain {l : BufferState} (h : Restores record l) :
    l.Plain := by
  have hvalid := h.valid
  unfold PersistedBufferState.isInvalid at hvalid
  simp only [Bool.or_eq_false_iff, Bool.and_eq_false_iff, decide_eq_false_iff_not, not_not] at hvalid
  constructor
  · intro hzero
    by_cases hlost : record.metadata.durability = .volatile ∧ record.deleted = false ∧
      record.revision ≠ 0
    · rw [(h.lost hlost).1] at hzero
      exact absurd hzero (Nat.succ_ne_zero _)
    · obtain ⟨hrevision, htext⟩ := h.kept hlost
      obtain ⟨hempty, hdeleted⟩ := hvalid.1.resolve_left (not_not.mpr (hrevision.symm.trans hzero))
      exact ⟨htext.trans hempty, h.deleted.trans hdeleted⟩
  intro hgone
  have hdeleted := h.deleted.symm.trans hgone
  obtain ⟨-, htext⟩ := h.kept fun hlost => absurd (hdeleted.symm.trans hlost.2.1) nofun
  rw [htext]
  exact hvalid.2.resolve_left (fun hnot => absurd (hdeleted.symm.trans hnot) nofun)

/-- **Everything the loop of `restore` does**, over records of different buffers. -/
theorem restoreFrom_spec {supply : Supply} : ∀ {records : List PersistedBufferState}
    {states restored : BufferStates}, states.Tidy →
    (records.map fun record => record.metadata.id).Nodup →
    states.restoreFrom supply records = .ok restored →
      restored.Tidy ∧
      (∀ record ∈ records, ∃ l, restored.get? record.metadata.id = some l ∧ Restores record l) ∧
      ∀ id, (∀ record ∈ records, record.metadata.id ≠ id) → restored.get? id = states.get? id
  | [], states, restored, htidy, _, h => by
    obtain rfl := ok.inj h
    exact ⟨htidy, nofun, fun _ _ => rfl⟩
  | record :: records, states, restored, htidy, hids, h => by
    unfold restoreFrom at h
    split at h
    · cases h
    rename_i hfree
    simp only [Bool.or_eq_true, not_or, Bool.not_eq_true, Option.isSome_eq_false_iff,
      Option.isNone_iff_eq_none] at hfree
    obtain ⟨⟨hvalid, hnone⟩, hname⟩ := hfree
    split at h
    · cases h
    rename_i revision text hrestored
    have hspec := restored_spec hvalid hrestored
    rw [map_cons, nodup_cons] at hids
    obtain ⟨hfresh, hids⟩ := hids
    obtain ⟨htidy', hrecords, hother⟩ :=
      restoreFrom_spec (htidy.insert hspec.plain (.inr ⟨hnone, hname⟩)) hids h
    have hnot : ∀ other ∈ records, other.metadata.id ≠ record.metadata.id := fun other hmem heq =>
      hfresh (mem_map.mpr ⟨other, hmem, heq⟩)
    refine ⟨htidy', fun other hmem => ?_, fun id hid => ?_⟩
    · rcases mem_cons.mp hmem with rfl | hmem
      · exact ⟨_, (hother _ hnot).trans (states.get?_insert_self _), hspec⟩
      · exact hrecords other hmem
    · rw [hother id fun other hmem => hid other (mem_cons_of_mem _ hmem)]
      exact states.get?_insert_of_ne _ (hid record mem_cons_self).symm

theorem mem_persisted {states : BufferStates} :
    record ∈ states.persisted ↔ ∃ p, states.get? record.metadata.id = some p ∧
      p.persisted = record := by
  unfold persisted
  rw [mem_map]
  constructor
  · rintro ⟨⟨id, p⟩, hmem, rfl⟩
    have hget := get?_eq_some.mpr hmem
    refine ⟨p, ?_, rfl⟩
    change states.entries.get? p.metadata.id = some p
    rw [states.keyed id p hget, hget]
  · rintro ⟨p, hp, hrecord⟩
    exact ⟨(record.metadata.id, p), get?_eq_some.mp hp, hrecord⟩

theorem nodup_persisted (states : BufferStates) :
    (states.persisted.map fun record => record.metadata.id).Nodup := by
  unfold persisted
  rw [map_map]
  refine pairwise_map.mpr (states.entries.sorted.imp_of_mem fun {a b} ha hb hab => ?_)
  change a.2.metadata.id ≠ b.2.metadata.id
  rw [states.keyed a.1 a.2 (get?_eq_some.mpr ha),
    states.keyed b.1 b.2 (get?_eq_some.mpr hb)]
  exact hab.ne

/-- **A buffer that comes back follows the live one, and is mirrored as that was.** -/
theorem Restores.follows {p l l' : BufferState} (h : Restores p.persisted l')
    (hmirrors : p.Mirrors l) :
    p.Mirrors l' ∧ l.Follows l' := by
  have hmeta : l'.metadata = p.metadata := h.metadata
  have hdel : l'.deleted = p.deleted := h.deleted
  have hsame : l.metadata.durability = p.metadata.durability := by rw [hmirrors.metadata]
  by_cases hlost : p.metadata.durability = .volatile ∧ p.deleted = false ∧ p.revision ≠ 0
  · obtain ⟨hrevision, htext⟩ : l'.revision = p.revision + 1 ∧ l'.text.toText = [] := h.lost hlost
    obtain ⟨hvolatile, hkept, hne⟩ := hlost
    obtain ⟨hempty, hlive⟩ := hmirrors.volatile (hsame.trans hvolatile)
    refine ⟨⟨hmeta, hdel, h.plain, fun hd => ?_, fun _ => ⟨hempty, .inr ?_⟩⟩, ?_⟩
    · rw [hmeta, hvolatile] at hd
      cases hd
    · exact ⟨hrevision, hne, htext, hdel.trans hkept⟩
    · refine ⟨hmeta.trans hmirrors.metadata.symm, ?_, fun heq => ?_, fun hgone => ?_⟩
      · rcases hlive with hlive | ⟨hlive, -⟩ <;> omega
      · rcases hlive with hlive | ⟨-, -, hlivetext, hlivekept⟩
        · omega
        · exact ⟨htext.trans hlivetext.symm, (hdel.trans hkept).trans hlivekept.symm⟩
      · rw [hmirrors.deleted, hkept] at hgone
        cases hgone
  · obtain ⟨hrevision, htext⟩ : l'.revision = p.revision ∧
      l'.text.toText = p.text.toText := h.kept hlost
    have hlive : l.revision = p.revision := by
      rcases l.metadata.durability.eq_durable_or_volatile with hd | hv
      · exact (hmirrors.durable hd).1
      · rcases (hmirrors.volatile hv).2 with heq | ⟨-, hne, -, hkept⟩
        · exact heq
        · exact absurd ⟨hsame.symm.trans hv, hmirrors.deleted.symm.trans hkept, hne⟩ hlost
    have hcontent : l'.text.toText = l.text.toText := by
      rcases l.metadata.durability.eq_durable_or_volatile with hd | hv
      · rw [htext, (hmirrors.durable hd).2]
      -- what is volatile and not lost is deleted, or was never written
      rw [htext, (hmirrors.volatile hv).1]
      by_cases hgone : p.deleted = true
      · exact (hmirrors.plain.deleted (hmirrors.deleted.trans hgone)).symm
      · have hzero : p.revision = 0 := by
          by_contra hne
          exact hlost ⟨hsame.symm.trans hv, Bool.eq_false_iff.mpr hgone, hne⟩
        exact (hmirrors.plain.zero (hlive.trans hzero)).1.symm
    refine ⟨⟨hmeta, hdel, h.plain, fun _ => ⟨hrevision, htext⟩, fun hv => ⟨?_, .inl hrevision⟩⟩, ?_⟩
    · rw [hmeta] at hv
      exact (hmirrors.volatile (hsame.trans hv)).1
    · exact ⟨hmeta.trans hmirrors.metadata.symm, (hlive.trans hrevision.symm).le,
        fun _ => ⟨hcontent, hdel.trans hmirrors.deleted.symm⟩, fun _ => hrevision.trans hlive.symm⟩

/-- **The restored buffers follow the live ones, and are mirrored as those were.** -/
theorem Mirrors.restore {replayed live restored : BufferStates} {supply : Supply}
    (h : replayed.Mirrors live) (hrestore : BufferStates.restore supply replayed.persisted =
      .ok restored) :
    replayed.Mirrors restored ∧ live.Follows restored ∧ restored.Tidy := by
  obtain ⟨htidy, hrecords, hother⟩ :=
    restoreFrom_spec tidy_empty (nodup_persisted replayed) hrestore
  have hback : ∀ {id : Identity} {p : BufferState}, replayed.get? id = some p →
      ∃ l, restored.get? id = some l ∧ Restores p.persisted l := by
    intro id p hp
    have hkey := replayed.keyed id p hp
    obtain ⟨l, hl, hspec⟩ := hrecords p.persisted
      (mem_persisted.mpr ⟨p, by rw [← hp, ← hkey]; rfl, rfl⟩)
    exact ⟨l, hkey ▸ hl, hspec⟩
  refine ⟨fun id => ?_, fun id l hl => ?_, htidy⟩
  · cases hp : replayed.get? id with
    | none =>
      have hnone : restored.get? id = none := by
        rw [hother id fun record hrecord heq => ?_]
        · rfl
        · obtain ⟨p, hsome, -⟩ := mem_persisted.mp hrecord
          rw [heq, hp] at hsome
          cases hsome
      rw [hnone]
      exact .none
    | some p =>
      obtain ⟨l', hl', hspec⟩ := hback hp
      obtain ⟨l, -, hmirrors⟩ := h.of_replayed hp
      rw [hl']
      exact .some (hspec.follows hmirrors).1
  · obtain ⟨p, hp, hmirrors⟩ := h.of_live hl
    obtain ⟨l', hl', hspec⟩ := hback hp
    exact ⟨l', hl', (hspec.follows hmirrors).2⟩

end BufferStates

end Mica
