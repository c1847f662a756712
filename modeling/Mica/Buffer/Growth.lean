import Mathlib.Data.List.Pairwise
import Mica.Buffer.Provenance
import Mica.Buffer.Store

/-!
# Buffer/Growth — what any transaction can make of the buffers

Transactions create, edit, delete, compact and revert buffers.  A published buffer keeps its
metadata, its revision does not go down, and as long as the revision is the same, so is the content
(`BufferState.Follows`).  Together with the chunks (`Text.Agrees`) this makes the changes of a staged
state exact (`stagedChanges_spec`).
-/

open SortedList SpanEdit List SortedMap
open Except (ok.inj)
open Option (some.inj)

namespace Mica

/-! ## Chunks -/

namespace Text

variable {base view view' : Text}

/-- The chunks of a view are those of a base, or newer. -/
def Agrees (base view : Text) : Prop :=
  ∀ p ∈ view.pieces, (∃ q ∈ base.pieces, p.chunk = q.chunk) ∨ base.bound ≤ p.chunk.id

theorem agrees_self (base : Text) : base.Agrees base := fun p hp => .inl ⟨p, hp, rfl⟩

theorem agrees_empty (base : Text) : base.Agrees Text.empty := nofun

theorem agrees_fromText (base : Text) (text : List Char) {supply : Supply}
    (h : base.bound ≤ supply.chunk) : base.Agrees (fromText text supply) :=
  fun _ hp => .inr (h.trans (le_id_newPieces hp))

theorem Agrees.replace {start stop : ℕ} {text : List Char} {supply : Supply} (h : base.Agrees view)
    (hreplace : view.replace start stop text supply = .ok view')
    (hsupply : base.bound ≤ supply.chunk) :
    base.Agrees view' := by
  have hold : ∀ p q : Piece, q ∈ view.pieces → p.chunk = q.chunk →
      (∃ q ∈ base.pieces, p.chunk = q.chunk) ∨ base.bound ≤ p.chunk.id := fun p q hq heq => by
    rw [heq]
    exact h q hq
  unfold Text.replace at hreplace
  split at hreplace
  · cases hreplace
  split at hreplace
  · exact ok.inj hreplace ▸ h
  obtain rfl := ok.inj hreplace
  intro p hp
  rcases mem_append.mp hp with hp | hp
  · rcases mem_append.mp hp with hp | hp
    · obtain ⟨q, hq, heq⟩ := Pieces.mem_split (.inl hp)
      exact hold p q hq heq
    · exact .inr (hsupply.trans ((le_max_left _ _).trans (le_id_newPieces hp)))
  · obtain ⟨q, hq, heq⟩ := Pieces.mem_split (.inr hp)
    obtain ⟨q', hq', heq'⟩ := Pieces.mem_split (.inr hq)
    exact hold p q' hq' (heq.trans heq')

theorem Agrees.applyAll {supply : Supply} (h : base.Agrees view)
    (hsupply : base.bound ≤ supply.chunk) :
    ∀ {rs : List Replacement} {view' : Text}, Delta.applyAll supply view rs = .ok view' →
      base.Agrees view'
  | [], _, happly => ok.inj happly ▸ h
  | r :: rs, _, happly => by
    unfold Delta.applyAll at happly
    split at happly
    · cases happly
    rename_i hrest
    split at happly
    · cases happly
    rename_i hreplace
    obtain rfl := ok.inj happly
    exact (h.applyAll hsupply hrest).replace hreplace hsupply

/-- The character that a span of the base holds. -/
theorem charAt_of_mem_baseSpans {id k : ℕ} {s : BaseSpan} (hstart : s.start ≤ k) (hstop : k < s.stop) :
    ∀ {offset : ℕ} {ps : List Piece}, s ∈ baseSpans id offset ps →
      offset ≤ s.offset ∧ ∃ q ∈ ps, q.chunk.id = id ∧
        (Pieces.read Piece.charAt ps)[s.offset - offset + (k - s.start)]? =
          some (Piece.charAt q.chunk k)
  | _, [], h => nomatch h
  | offset, p :: ps, h => by
    have hlen := p.length_read Piece.charAt
    have hrest : s ∈ baseSpans id (offset + p.len) ps → offset ≤ s.offset ∧ ∃ q ∈ p :: ps,
        q.chunk.id = id ∧ (Pieces.read Piece.charAt (p :: ps))[s.offset - offset + (k - s.start)]? =
          some (Piece.charAt q.chunk k) := by
      intro hmem
      obtain ⟨hle, q, hq, hid, hchar⟩ := charAt_of_mem_baseSpans hstart hstop hmem
      refine ⟨by omega, q, mem_cons_of_mem p hq, hid, ?_⟩
      rw [Pieces.read_cons, getElem?_append_right (by rw [hlen]; omega), hlen, ← hchar]
      congr 1
      omega
    rw [baseSpans] at h
    split at h
    · next hid =>
      rcases mem_cons.mp h with rfl | h
      · refine ⟨le_rfl, p, mem_cons_self, hid, ?_⟩
        dsimp only at hstart hstop
        have hk : k - p.start < p.len := by
          unfold Piece.len
          omega
        dsimp only
        rw [Pieces.read_cons, Nat.sub_self, Nat.zero_add, getElem?_append_left (by omega)]
        unfold Piece.read
        rw [getElem?_map, getElem?_range' hk, Option.map_some]
        congr 2
        omega
      · exact hrest h
    · exact hrest h

/-- Chunks of the one text and of the other under the same number are the same. -/
def Coherent (t u : Text) : Prop :=
  ∀ p ∈ t.pieces, ∀ q ∈ u.pieces, p.chunk.id = q.chunk.id → p.chunk = q.chunk

theorem Coherent.symm {t u : Text} (h : t.Coherent u) : u.Coherent t :=
  fun p hp q hq hid => (h q hq p hp hid.symm).symm

theorem coherent_self (t : Text) : t.Coherent t := by
  intro p hp q hq hid
  by_cases heq : p.chunk = q.chunk
  · exact heq
  · have hsymm : Std.Symm fun p q : Piece => p.chunk.id = q.chunk.id → p.chunk = q.chunk :=
      ⟨fun _ _ h hid => (h hid.symm).symm⟩
    exact (t.ordered.imp fun h hid => (h hid).1).forall hp hq (fun hpq => heq (hpq ▸ rfl)) hid

/-- New chunks have other numbers. -/
theorem Agrees.coherent (h : base.Agrees view) : base.Coherent view := by
  intro p hp q hq hid
  rcases h q hq with ⟨p', hp', heq⟩ | hnew
  · rw [heq]
    exact base.coherent_self p hp p' hp' (heq ▸ hid)
  · exact absurd (id_lt_bound hp) (by rw [hid]; exact not_lt.mpr hnew)

/-- **A view with the chunks of a base shows its characters.** -/
theorem Coherent.shows (h : base.Coherent view) : base.Shows view := by
  unfold Shows tokens read Pieces.read
  rw [toText_eq_read, map_flatMap]
  refine flatMap_congr fun p hp => ?_
  unfold Piece.read
  rw [map_map]
  refine map_congr_left fun k _ => ?_
  dsimp only [Function.comp_apply]
  cases hlocate : base.locate p.chunk k with
  | none =>
    unfold token
    rw [hlocate]
    rfl
  | some i =>
    unfold token
    rw [hlocate]
    unfold locate at hlocate
    obtain ⟨s, hfind, rfl⟩ := Option.map_eq_some_iff.mp hlocate
    have hholds := find?_some hfind
    unfold BaseSpan.holds at hholds
    simp only [Bool.and_eq_true, decide_eq_true_eq] at hholds
    obtain ⟨-, q, hq, hid, hchar⟩ :=
      charAt_of_mem_baseSpans hholds.1 hholds.2 (mem_of_find?_eq_some hfind)
    -- the chunk of the view is the one of the base
    have hsame : p.chunk = q.chunk := (h q hq p hp hid).symm
    dsimp only [value, Token.value]
    rw [Nat.add_sub_assoc hholds.1, hsame, toText_eq_read, getD_eq_getElem?_getD]
    rw [Nat.sub_zero] at hchar
    unfold read
    rw [hchar]
    rfl

theorem Agrees.shows (h : base.Agrees view) : base.Shows view := h.coherent.shows

theorem shows_empty (view : Text) : empty.Shows view := by
  have h : empty.Agrees view := fun _ _ => .inr (Nat.zero_le _)
  exact h.shows

end Text

/-! ## Published states -/

/-- **A later state of a buffer.** -/
structure BufferState.Follows (a b : BufferState) : Prop where
  metadata : b.metadata = a.metadata
  le : a.revision ≤ b.revision
  same : b.revision = a.revision → b.text.toText = a.text.toText ∧ b.deleted = a.deleted
  frozen : a.deleted = true → b.revision = a.revision

theorem BufferState.Follows.refl (a : BufferState) : a.Follows a :=
  ⟨rfl, le_rfl, fun _ => ⟨rfl, rfl⟩, fun _ => rfl⟩

theorem BufferState.Follows.trans {a b c : BufferState} (h : a.Follows b) (h' : b.Follows c) :
    a.Follows c := by
  refine ⟨h'.metadata.trans h.metadata, h.le.trans h'.le, fun heq => ?_, fun hgone => ?_⟩
  · have hle := h.le
    have hle' := h'.le
    obtain ⟨htext, hdeleted⟩ := h.same (by omega)
    obtain ⟨htext', hdeleted'⟩ := h'.same (by omega)
    exact ⟨htext'.trans htext, hdeleted'.trans hdeleted⟩
  · have hrevision := h.frozen hgone
    rw [h'.frozen ((h.same hrevision).2.trans hgone), hrevision]

/-- **Later states of all buffers.** -/
def BufferStates.Follows (a b : BufferStates) : Prop :=
  ∀ id state, a.get? id = some state → ∃ state', b.get? id = some state' ∧ state.Follows state'

theorem BufferStates.Follows.refl (a : BufferStates) : a.Follows a :=
  fun _ state h => ⟨state, h, .refl state⟩

theorem BufferStates.Follows.trans {a b c : BufferStates} (h : a.Follows b) (h' : b.Follows c) :
    a.Follows c := fun id state hstate => by
  obtain ⟨state', hstate', hfollows⟩ := h id state hstate
  obtain ⟨state'', hstate'', hfollows'⟩ := h' id state' hstate'
  exact ⟨state'', hstate'', hfollows.trans hfollows'⟩

/-- The texts have the chunks of some earlier states, or newer ones. -/
def BufferStates.AgreesWith (live states : BufferStates) : Prop :=
  ∀ id previous state, live.get? id = some previous → states.get? id = some state →
    previous.text.Agrees state.text

/-- Addresses that none of the states uses. -/
def Supply.Spares (supply : Supply) (live : BufferStates) : Prop :=
  ∀ id state, live.get? id = some state → state.text.bound ≤ supply.chunk

theorem le_foldr_max {x : ℕ} : ∀ {l : List ℕ} (n : ℕ), x ∈ l → x ≤ l.foldr max n
  | y :: l, n, h => by
    rw [foldr_cons]
    rcases mem_cons.mp h with rfl | h
    · exact le_max_left _ _
    · exact (le_foldr_max n h).trans (le_max_right _ _)

/-! ## Writes -/

/-- **What holds of every write of a transaction.** -/
structure PendingBuffer.Sound (live : BufferStates) (base : BufferStates) (id : Identity)
    (pending : PendingBuffer) : Prop where
  key : pending.metadata.id = id
  base_eq : pending.base = base.get? id
  metadata : ∀ state, pending.base = some state → pending.metadata = state.metadata
  agrees : ∀ previous, live.get? id = some previous → previous.text.Agrees pending.text
  applied : pending.base.isSome = true → pending.touched = true ∨ pending.sealed = true
  compact : pending.compact = true → pending.sealed = true ∧ pending.deleted = false ∧
    ∃ state, pending.base = some state ∧ pending.text.toText = state.text.toText
  gone : pending.deleted = true → pending.text.toText = []

/-- A transaction whose writes are sound. -/
def BufferTransaction.Sound (live : BufferStates) (tx : BufferTransaction) : Prop :=
  ∀ id pending, tx.bufferWrites.get? id = some pending → pending.Sound live tx.base id

namespace BufferTransaction

variable {live : BufferStates} {tx tx' : BufferTransaction} {id : Identity} {supply : Supply}

theorem sound_new (live base : BufferStates) : (new base).Sound live := nofun

/-- Without live texts there is nothing to agree with. -/
theorem Sound.alone (h : tx.Sound live) : tx.Sound BufferStates.empty :=
  fun id pending hget => { h id pending hget with agrees := nofun }

/-- A new write in place of an old one. -/
theorem Sound.insert (h : tx.Sound live) {pending : PendingBuffer}
    (hpending : pending.Sound live tx.base id) :
    ({ tx with bufferWrites := tx.bufferWrites.insert id pending } :
      BufferTransaction).Sound live := by
  intro id' pending' hget
  dsimp only at hget
  rw [get?_insert] at hget
  split at hget
  · next heq =>
    rwa [heq, ← some.inj hget]
  · exact h id' pending' hget

/-- The text that a transaction sees has the chunks of the live one, or newer ones. -/
theorem Sound.bufferText (h : tx.Sound live) (hagrees : live.AgreesWith tx.base) {text : Text}
    (htext : tx.bufferText id = .ok text) {previous : BufferState}
    (hlive : live.get? id = some previous) : previous.text.Agrees text := by
  unfold BufferTransaction.bufferText at htext
  cases hwrite : tx.bufferWrites.get? id with
  | some pending =>
    rw [hwrite] at htext
    dsimp only at htext
    split at htext
    · cases htext
    exact ok.inj htext ▸ (h id pending hwrite).agrees previous hlive
  | none =>
    rw [hwrite] at htext
    unfold baseBuffer at htext
    rcases hbase : tx.base.get? id with _ | state
    · rw [hbase] at htext
      cases htext
    rw [hbase] at htext
    dsimp only at htext
    by_cases hdeleted : state.deleted = true
    · rw [if_pos hdeleted] at htext
      cases htext
    · rw [if_neg hdeleted] at htext
      exact ok.inj htext ▸ hagrees id previous state hlive hbase

/-- The write that a change starts from. -/
structure Begun (tx : BufferTransaction) (id : Identity) (pending : PendingBuffer) : Prop where
  key : pending.metadata.id = id
  base_eq : pending.base = tx.base.get? id
  metadata : ∀ state, pending.base = some state → pending.metadata = state.metadata
  compact : pending.compact = false
  kept : pending.deleted = false
  applied : tx.isApplied id = false → ∀ state, pending.base = some state →
    pending.text = state.text ∧ pending.deleted = false

theorem Sound.bufferWrite (h : tx.Sound live) {pending : PendingBuffer}
    (hwrite : tx.bufferWrite id = .ok pending) : Begun tx id pending := by
  unfold BufferTransaction.bufferWrite ensureBufferMutable at hwrite
  cases hget : tx.bufferWrites.get? id with
  | some known =>
    rw [hget] at hwrite
    dsimp only at hwrite
    have hknown := h id known hget
    by_cases hsealed : known.sealed = true
    · rw [if_pos hsealed] at hwrite
      cases hwrite
    rw [if_neg hsealed] at hwrite
    dsimp only at hwrite
    by_cases hdeleted : known.deleted = true
    · rw [if_pos hdeleted] at hwrite
      cases hwrite
    rw [if_neg hdeleted] at hwrite
    obtain rfl := ok.inj hwrite
    refine ⟨hknown.key, hknown.base_eq, hknown.metadata, ?_, Bool.eq_false_iff.mpr hdeleted,
      fun happlied state hstate => ?_⟩
    · exact Bool.eq_false_iff.mpr fun hcompact => hsealed (hknown.compact hcompact).1
    · -- a write of a buffer that was there has been edited or is closed
      unfold isApplied at happlied
      rw [hget] at happlied
      have hany := hknown.applied (by rw [hstate]; rfl)
      rcases hany with htouched | hclosed
      · rw [Option.any_some, htouched] at happlied
        cases happlied
      · exact absurd hclosed hsealed
  | none =>
    rw [hget] at hwrite
    dsimp only at hwrite
    unfold baseBuffer at hwrite
    rcases hbase : tx.base.get? id with _ | state
    · rw [hbase] at hwrite
      cases hwrite
    rw [hbase] at hwrite
    dsimp only at hwrite
    by_cases hdeleted : state.deleted = true
    · rw [if_pos hdeleted] at hwrite
      cases hwrite
    rw [if_neg hdeleted] at hwrite
    obtain rfl := ok.inj hwrite
    refine ⟨tx.base.keyed id state hbase, hbase.symm, fun s hs => ?_, rfl, rfl, fun _ s hs => ?_⟩
    · rw [← some.inj hs]
    · rw [← some.inj hs]
      exact ⟨rfl, rfl⟩

/-- A change of a write that keeps it sound. -/
theorem Sound.updateWrite (h : tx.Sound live) {f : PendingBuffer → PendingBuffer}
    (hupdate : tx.updateWrite id f = .ok tx')
    (hf : ∀ pending, Begun tx id pending → (f pending).Sound live tx.base id) :
    tx'.Sound live ∧ tx'.base = tx.base := by
  unfold BufferTransaction.updateWrite at hupdate
  split at hupdate
  · cases hupdate
  rename_i pending hpending
  obtain rfl := ok.inj hupdate
  exact ⟨h.insert (hf pending (h.bufferWrite hpending)), rfl⟩

/-- A write that is edited, deleted or reverted. -/
theorem Begun.edit {pending : PendingBuffer} (h : Begun tx id pending) {f : PendingBuffer}
    (hmetadata : f.metadata = pending.metadata) (hbase : f.base = pending.base)
    (hcompact : f.compact = pending.compact) (happlied : f.touched = true ∨ f.sealed = true)
    (hgone : f.deleted = true → f.text.toText = [])
    (hagrees : ∀ previous, live.get? id = some previous → previous.text.Agrees f.text) :
    f.Sound live tx.base id where
  key := hmetadata ▸ h.key
  base_eq := hbase.trans h.base_eq
  metadata := by
    rw [hmetadata, hbase]
    exact h.metadata
  agrees := hagrees
  applied _ := happlied
  compact hc := absurd (hcompact.symm.trans hc) (by rw [h.compact]; exact nofun)
  gone := hgone

/-- A write that is not deleted. -/
theorem Begun.gone {pending : PendingBuffer} (h : Begun tx id pending) (text : Text) :
    pending.deleted = true → text.toText = [] :=
  fun hdeleted => absurd (hdeleted.symm.trans h.kept) nofun

section Operations

variable (hsound : tx.Sound live) (hagrees : live.AgreesWith tx.base)
  (hspares : ∀ previous, live.get? id = some previous →
    previous.text.bound ≤ (supply.above (tx.baseText id)).chunk)

theorem spares_above (hspares : supply.Spares live) (text : Text) : (supply.above text).Spares live :=
  fun id state h => (hspares id state h).trans (le_max_left _ _)

/-- The text that a transaction started from is spared by itself. -/
theorem spares_base (tx : BufferTransaction) (supply : Supply) (previous : BufferState)
    (h : tx.base.get? id = some previous) :
    previous.text.bound ≤ (supply.above (tx.baseText id)).chunk := by
  have hbase : tx.baseText id = previous.text := by
    unfold baseText
    rw [h]
  rw [hbase]
  exact supply.bound_le_above previous.text

include hsound hagrees hspares in
theorem sound_replaceBuffer {start stop : ℕ} {text : List Char}
    (h : tx.replaceBuffer id start stop text supply = .ok tx') :
      tx'.Sound live ∧ tx'.base = tx.base := by
  rcases replaceBuffer_cases h with rfl | ⟨previous, next, pending, htext, hwrite, hreplace, rfl⟩
  · exact ⟨hsound, rfl⟩
  · have hbegun := hsound.bufferWrite hwrite
    refine ⟨hsound.insert (hbegun.edit rfl rfl rfl (.inl rfl) (hbegun.gone next) fun prev hlive => ?_),
      rfl⟩
    exact (hsound.bufferText hagrees htext hlive).replace hreplace (hspares prev hlive)

include hsound in
theorem sound_createBuffer {relations : List RelationMetadata} {metadata : BufferMetadata}
    (h : tx.createBuffer relations metadata = .ok tx') : tx'.Sound live ∧ tx'.base = tx.base := by
  unfold createBuffer at h
  split at h
  · cases h
  rename_i hnew
  obtain rfl := ok.inj h
  have hnone : tx.base.get? metadata.id = none := by
    rw [← Option.not_isSome_iff_eq_none]
    intro hsome
    exact hnew (by simp [hsome])
  refine ⟨hsound.insert ⟨rfl, hnone.symm, nofun, fun prev _ => prev.text.agrees_empty, nofun, nofun,
    nofun⟩, rfl⟩

include hsound in
theorem sound_deleteBuffer (h : tx.deleteBuffer id = .ok tx') : tx'.Sound live ∧ tx'.base = tx.base :=
  hsound.updateWrite h fun _ hbegun =>
    hbegun.edit rfl rfl rfl (.inl rfl) (fun _ => rfl) fun prev _ => prev.text.agrees_empty

theorem agrees_applyEdits {base : Text} (hsupply : base.bound ≤ supply.chunk) :
    ∀ {edits : List Replacement} {text text' : Text}, base.Agrees text →
      applyEdits id supply edits text = .ok text' → base.Agrees text'
  | [], _, _, h, happly => ok.inj happly ▸ h
  | edit :: edits, _, _, h, happly => by
    unfold applyEdits at happly
    split at happly
    · cases happly
    rename_i hreplace
    exact agrees_applyEdits hsupply (h.replace hreplace hsupply) happly

include hsound hagrees hspares in
theorem sound_applyBuffer {expected : ℕ} {edits : List Replacement}
    {reserved : Except KernelError Unit}
    (h : tx.applyBuffer id expected edits supply reserved = .ok tx') :
    tx'.Sound live ∧ tx'.base = tx.base := by
  unfold applyBuffer at h
  split at h
  · cases h
  split at h
  · exact ok.inj h ▸ ⟨hsound, rfl⟩
  split at h
  · cases h
  split at h
  · cases h
  rename_i text htext
  split at h
  · cases h
  rename_i text' hedits
  split at h
  · cases h
  refine hsound.updateWrite h fun _ hbegun =>
    hbegun.edit rfl rfl rfl (.inr rfl) (hbegun.gone text') fun prev hlive => ?_
  exact agrees_applyEdits (hspares prev hlive) (hsound.bufferText hagrees htext hlive) hedits

include hsound hspares in
theorem sound_revertBuffer {revision expected : ℕ} {historical : Option BufferState}
    (h : tx.revertBuffer id revision expected historical supply = .ok tx') :
    tx'.Sound live ∧ tx'.base = tx.base := by
  unfold revertBuffer at h
  split at h
  · cases h
  split at h
  · exact ok.inj h ▸ ⟨hsound, rfl⟩
  split at h
  · cases h
  split at h
  · exact ok.inj h ▸ ⟨hsound, rfl⟩
  · refine hsound.updateWrite h fun _ hbegun =>
      hbegun.edit rfl rfl rfl (.inr rfl) (hbegun.gone _) fun prev hlive => ?_
    exact Text.agrees_fromText _ _ (hspares prev hlive)

include hsound in
/-- A write that is neither edited nor closed is of a buffer that is as it was. -/
theorem bufferText_of_not_applied (happlied : tx.isApplied id = false) {state : BufferState}
    (hbase : tx.base.get? id = some state) {text : Text} (htext : tx.bufferText id = .ok text) :
    text = state.text := by
  unfold BufferTransaction.bufferText at htext
  cases hget : tx.bufferWrites.get? id with
  | some known =>
    have hknown := hsound id known hget
    have hany := hknown.applied (by rw [hknown.base_eq, hbase]; rfl)
    unfold isApplied at happlied
    rw [hget, Option.any_some] at happlied
    simp only [Bool.or_eq_false_iff] at happlied
    rw [happlied.1, happlied.2] at hany
    rcases hany with hany | hany
    · cases hany
    · cases hany
  | none =>
    rw [hget] at htext
    unfold baseBuffer at htext
    rw [hbase] at htext
    dsimp only at htext
    by_cases hdeleted : state.deleted = true
    · rw [if_pos hdeleted] at htext
      cases htext
    · rw [if_neg hdeleted] at htext
      exact (ok.inj htext).symm

include hsound hspares in
theorem sound_compactBuffer (h : tx.compactBuffer id supply = .ok tx') :
    tx'.Sound live ∧ tx'.base = tx.base := by
  unfold compactBuffer at h
  split at h
  · cases h
  split at h
  · exact ok.inj h ▸ ⟨hsound, rfl⟩
  rename_i hsome
  split at h
  · cases h
  rename_i happlied
  split at h
  · cases h
  rename_i text htext
  have happlied := Bool.eq_false_iff.mpr happlied
  obtain ⟨state, hbase⟩ := Option.ne_none_iff_exists'.mp (mt Option.isNone_iff_eq_none.mpr hsome)
  obtain rfl := bufferText_of_not_applied hsound happlied hbase htext
  refine hsound.updateWrite h fun pending hbegun => ⟨hbegun.key, hbegun.base_eq, hbegun.metadata,
    fun prev hlive => ?_, fun _ => .inr rfl, fun _ => ⟨rfl, hbegun.kept, state, ?_, ?_⟩,
    hbegun.gone _⟩
  · exact Text.agrees_fromText _ _ (hspares prev hlive)
  · exact hbegun.base_eq.trans hbase
  · exact Text.toText_fromText _ _

end Operations

end BufferTransaction

/-! ## Committing -/

namespace Materializing

variable {relations : List RelationMetadata} {live base : BufferStates} {s s' : Materializing}
  {id : Identity} {pending : PendingBuffer} {supply : Supply} {result : BufferResult}
  {budget : DeltaBudget}

/-- A write that only puts a buffer into the catalogue. -/
def isEmptyCreation (pending : PendingBuffer) (result : BufferResult) : Bool :=
  pending.base.isNone && result.delta.isEmpty && !pending.deleted

theorem checkedAdd_eq_some {n k m : ℕ} (h : checkedAdd n k = some m) : m = n + k := by
  unfold checkedAdd at h
  split at h
  · exact (some.inj h).symm
  · cases h

variable {states : BufferStates}

/-- **Exactly what publishing a write does.** -/
theorem publish_exact {changes : List BufferChange}
    (h : s.publish id pending result = .ok (states, changes)) :
    (pending.base.isSome = true ∧ result.delta.isEmpty = true ∧ pending.deleted = false ∧
      pending.compact = false ∧ states = s.states ∧ changes = s.changes) ∨
    ∃ revision epoch, revision = result.baseRevision +
        (if pending.compact || isEmptyCreation pending result then 0 else 1) ∧
      epoch = (s.states.get? id).elim 0 BufferState.structureEpoch +
        (if pending.compact || pending.reverted then 1 else 0) ∧
      states = s.states.insert ⟨pending.metadata, revision, result.text, pending.deleted, epoch⟩ ∧
      changes = (if pending.compact then s.changes else s.changes ++
        [⟨pending.metadata, result.baseRevision, revision, result.delta, pending.deleted⟩]) ∧
      (pending.base.isSome = true → result.delta.isEmpty = true → pending.deleted = false →
        pending.compact = true) := by
  unfold publish at h
  dsimp only at h
  split at h
  · next hskip =>
    obtain ⟨rfl, rfl⟩ := Prod.mk.inj (ok.inj h)
    simp only [Bool.and_eq_true, Bool.not_eq_true'] at hskip
    exact .inl ⟨hskip.1.1.1, hskip.1.1.2, hskip.1.2, hskip.2, rfl, rfl⟩
  rename_i hchanges
  have hchanges' : pending.base.isSome = true → result.delta.isEmpty = true → pending.deleted = false →
      pending.compact = true := by
    intro hbase hempty hkept
    rw [hbase, hempty, hkept] at hchanges
    simpa using hchanges
  refine .inr ?_
  split at h
  · cases h
  rename_i revision hrevision
  have hrevision' : revision = result.baseRevision +
      (if pending.compact || isEmptyCreation pending result then 0 else 1) := by
    unfold isEmptyCreation
    split at hrevision
    · next hcond =>
      rw [if_pos hcond]
      exact (some.inj hrevision).symm
    · next hcond =>
      rw [if_neg hcond]
      exact checkedAdd_eq_some hrevision
  split at h
  · cases h
  rename_i epoch hepoch
  refine ⟨revision, epoch, hrevision', checkedAdd_eq_some hepoch, ?_⟩
  split at h
  · next hcompact =>
    obtain ⟨rfl, rfl⟩ := Prod.mk.inj (ok.inj h)
    exact ⟨rfl, (if_pos hcompact).symm, hchanges'⟩
  · next hcompact =>
    obtain ⟨rfl, rfl⟩ := Prod.mk.inj (ok.inj h)
    exact ⟨rfl, (if_neg hcompact).symm, hchanges'⟩

/-- **Everything that publishing a write can do.** -/
theorem publish_cases {changes : List BufferChange}
    (h : s.publish id pending result = .ok (states, changes)) :
    (pending.base.isSome = true ∧ result.delta.isEmpty = true ∧ pending.deleted = false ∧
      pending.compact = false ∧ states = s.states ∧ changes = s.changes) ∨
    ∃ state, states = s.states.insert state ∧ state.metadata = pending.metadata ∧
      state.text = result.text ∧ state.deleted = pending.deleted ∧
      state.revision = result.baseRevision +
        (if pending.compact || isEmptyCreation pending result then 0 else 1) ∧
      changes = if pending.compact then s.changes else s.changes ++
        [⟨pending.metadata, result.baseRevision, state.revision, result.delta, pending.deleted⟩] := by
  refine (publish_exact h).imp_right ?_
  rintro ⟨revision, epoch, hrevision, -, hstates, hchanges, -⟩
  exact ⟨_, hstates, rfl, rfl, rfl, hrevision, hchanges⟩

variable {state : BufferState}

/-- What is made of a buffer that was there. -/
theorem edited_cases (h : s.edited supply id pending state = .ok (result, budget)) :
    ∃ latest, s.states.get? id = some latest ∧ latest.deleted = false ∧
      result.baseRevision = latest.revision ∧
      ((pending.compact = true ∧ latest.revision = state.revision ∧ result.text = pending.text ∧
          result.delta = Delta.empty) ∨ (pending.compact = false ∧
          ((latest.revision = state.revision ∧ result.text = pending.text ∧
              Delta.Of state.text pending.text result.delta) ∨
            (pending.deleted = false ∧ result.text = pending.text ∧
              Delta.new [⟨0, latest.text.len, pending.text.toText⟩] = .ok result.delta) ∨
            (pending.deleted = false ∧
              result.delta.apply latest.text (supply.above state.text) = .ok result.text)))) := by
  unfold edited at h
  split at h
  · cases h
  rename_i latest hlatest
  refine ⟨latest, hlatest, ?_⟩
  split at h
  · cases h
  split at h
  · cases h
  rename_i hconflict
  rw [Bool.not_eq_true, Bool.or_eq_false_iff, Bool.and_eq_false_iff, bne_eq_false_iff_eq,
    Bool.or_eq_false_iff, Bool.or_eq_false_iff, Bool.or_eq_false_iff] at hconflict
  obtain ⟨hdeleted, hmoved⟩ := hconflict
  refine ⟨hdeleted, ?_⟩
  by_cases hcompact : pending.compact = true
  · rw [if_pos hcompact] at h
    obtain ⟨rfl, -⟩ := Prod.mk.inj (ok.inj h)
    refine ⟨rfl, .inl ⟨hcompact, ?_, rfl, rfl⟩⟩
    rcases hmoved with hsame | ⟨⟨⟨-, hnot⟩, -⟩, -⟩
    · exact hsame
    · exact absurd (hnot.symm.trans hcompact) nofun
  rw [if_neg hcompact] at h
  have hcompact := Bool.eq_false_iff.mpr hcompact
  split at h
  · next hsame =>
    split at h
    · cases h
    rename_i d hcomplete
    obtain ⟨rfl, -⟩ := Prod.mk.inj (ok.inj h)
    exact ⟨rfl, .inr ⟨hcompact, .inl ⟨hsame, rfl, Delta.complete_spec hcomplete⟩⟩⟩
  rename_i hother
  have hkept : pending.deleted = false := (hmoved.resolve_left hother).1.1.1
  split at h
  · split at h
    · cases h
    rename_i d hnew
    obtain ⟨rfl, -⟩ := Prod.mk.inj (ok.inj h)
    exact ⟨rfl, .inr ⟨hcompact, .inr (.inl ⟨hkept, rfl, hnew⟩)⟩⟩
  unfold rebased at h
  split at h
  · cases h
  split at h
  · cases h
  split at h
  · cases h
  · cases h
  · split at h
    · cases h
    rename_i happly
    obtain ⟨rfl, -⟩ := Prod.mk.inj (ok.inj h)
    exact ⟨rfl, .inr ⟨hcompact, .inr (.inr ⟨hkept, happly⟩)⟩⟩

/-- What a write comes to. -/
theorem write_cases (h : s.write relations supply id pending = .ok s') :
    ∃ result, s.publish id pending result = .ok (s'.states, s'.changes) ∧
      ((pending.base = none ∧ s.created relations id pending = .ok result) ∨
        ∃ state budget, pending.base = some state ∧
          s.edited supply id pending state = .ok (result, budget)) := by
  unfold write Materializing.result at h
  cases hbase : pending.base with
  | none =>
    rw [hbase] at h
    dsimp only at h
    rcases hcreated : s.created relations id pending with _ | result
    · rw [hcreated] at h
      cases h
    rw [hcreated] at h
    dsimp only at h
    split at h
    · cases h
    rename_i states changes hpublish
    obtain rfl := ok.inj h
    exact ⟨result, hpublish, .inl ⟨rfl, rfl⟩⟩
  | some state =>
    rw [hbase] at h
    dsimp only at h
    rcases hedited : s.edited supply id pending state with _ | res
    · rw [hedited] at h
      cases h
    obtain ⟨result, budget⟩ := res
    rw [hedited] at h
    dsimp only at h
    split at h
    · cases h
    rename_i states changes hpublish
    obtain rfl := ok.inj h
    exact ⟨result, hpublish, .inr ⟨state, budget, rfl, hedited⟩⟩

/-- A buffer that is created was not there. -/
theorem created_cases (h : s.created relations id pending = .ok result) :
    s.states.get? id = none ∧ s.states.named pending.metadata.name = none ∧
      (∀ m ∈ relations, m.id ≠ id ∧ m.name ≠ pending.metadata.name) ∧
      result.text = pending.text ∧ result.baseRevision = 0 ∧
      Delta.Of Text.empty pending.text result.delta := by
  unfold created at h
  split at h
  · cases h
  rename_i hfree
  simp only [Bool.or_eq_true, not_or, Bool.not_eq_true, Option.isSome_eq_false_iff,
    Option.isNone_iff_eq_none, any_eq_false, decide_eq_true_eq] at hfree
  obtain ⟨⟨⟨hget, hnamed⟩, hids⟩, hnames⟩ := hfree
  split at h
  · cases h
  rename_i d hcomplete
  obtain rfl := ok.inj h
  exact ⟨hget, hnamed, fun m hm => ⟨hids m hm, hnames m hm⟩, rfl, rfl,
    Delta.complete_spec hcomplete⟩

/-- A state in the place of an older one. -/
theorem follows_insert
    (h : ∀ latest, states.get? state.metadata.id = some latest → latest.Follows state) :
    states.Follows (states.insert state) := by
  intro id latest hlatest
  by_cases hid : id = state.metadata.id
  · subst hid
    exact ⟨state, states.get?_insert_self state, h latest hlatest⟩
  · exact ⟨latest, (states.get?_insert_of_ne state hid).trans hlatest, .refl latest⟩

theorem agreesWith_insert (h : live.AgreesWith states)
    (hstate : ∀ previous, live.get? state.metadata.id = some previous →
      previous.text.Agrees state.text) : live.AgreesWith (states.insert state) := by
  intro id previous latest hlive hlatest
  by_cases hid : id = state.metadata.id
  · subst hid
    rw [states.get?_insert_self] at hlatest
    exact some.inj hlatest ▸ hstate previous hlive
  · rw [states.get?_insert_of_ne state hid] at hlatest
    exact h id previous latest hlive hlatest

/-- The text of a result has the chunks of the live one, or newer ones. -/
theorem agrees_result (hpending : pending.Sound live base id) (hagrees : live.AgreesWith s.states)
    (hspares : supply.Spares live) (h : s.edited supply id pending state = .ok (result, budget)) :
    ∀ previous, live.get? id = some previous → previous.text.Agrees result.text := by
  intro previous hlive
  have hsame : result.text = pending.text → previous.text.Agrees result.text := fun heq => by
    rw [heq]
    exact hpending.agrees previous hlive
  obtain ⟨latest, hlatest, -, -, ⟨-, -, htext, -⟩ |
    ⟨-, ⟨-, htext, -⟩ | ⟨-, htext, -⟩ | ⟨-, happly⟩⟩⟩ := edited_cases h
  · exact hsame htext
  · exact hsame htext
  · exact hsame htext
  · exact (hagrees id previous latest hlive hlatest).applyAll
      ((hspares id previous hlive).trans (le_max_left _ _)) happly

/-- **A write publishes a later state.** -/
theorem follows_write (hpending : pending.Sound live base id) (hfollows : base.Follows s.states)
    (hagrees : live.AgreesWith s.states) (hspares : supply.Spares live)
    (h : s.write relations supply id pending = .ok s') :
    s.states.Follows s'.states ∧ live.AgreesWith s'.states := by
  obtain ⟨result, hpublish, hresult⟩ := write_cases h
  rcases publish_cases hpublish with ⟨-, -, -, -, hstates, -⟩ |
    ⟨state, hstates, hmetadata, htext, hdeleted, hrevision, -⟩
  · rw [hstates]
    exact ⟨.refl _, hagrees⟩
  · rw [hstates]
    have hkey : state.metadata.id = id := by rw [hmetadata, hpending.key]
    rcases hresult with ⟨hbase, hcreated⟩ | ⟨old, budget, hbase, hedited⟩
    · obtain ⟨hnone, -, -, htext', -⟩ := created_cases hcreated
      refine ⟨follows_insert fun latest hlatest => ?_, agreesWith_insert hagrees fun prev hlive => ?_⟩
      · rw [hkey, hnone] at hlatest
        cases hlatest
      · rw [htext, htext']
        exact hpending.agrees prev (hkey ▸ hlive)
    refine ⟨follows_insert fun latest hlatest => ?_, agreesWith_insert hagrees fun prev hlive => ?_⟩
    · rw [hkey] at hlatest
      obtain ⟨latest', hlatest', hlatestdel, hbaseRev, hcases⟩ := edited_cases hedited
      obtain rfl := some.inj (hlatest.symm.trans hlatest')
      obtain ⟨latest'', hlatest'', hgrown⟩ := hfollows id old (hpending.base_eq.symm.trans hbase)
      obtain rfl := some.inj (hlatest.symm.trans hlatest'')
      have hsame : state.metadata = latest.metadata := by
        rw [hmetadata, hpending.metadata old hbase, hgrown.metadata]
      have hcreation : isEmptyCreation pending result = false := by
        unfold isEmptyCreation
        rw [hbase]
        rfl
      rw [hbaseRev, hcreation, Bool.or_false] at hrevision
      rcases hcases with ⟨hcompact, holdRev, htext', -⟩ | ⟨hcompact, -⟩
      · -- a compaction keeps the revision, and the content is that of the base
        rw [hcompact, if_pos rfl] at hrevision
        refine ⟨hsame, hrevision.ge, fun _ => ⟨?_, ?_⟩, fun _ => hrevision⟩
        · obtain ⟨-, -, old', hbase', hsame'⟩ := hpending.compact hcompact
          obtain rfl := some.inj (hbase.symm.trans hbase')
          rw [htext, htext', hsame']
          exact (hgrown.same holdRev).1.symm
        · rw [hdeleted, (hpending.compact hcompact).2.1, hlatestdel]
      · rw [hcompact, if_neg nofun] at hrevision
        exact ⟨hsame, by omega, fun heq => absurd heq (by omega),
          fun hgone => absurd (hgone.symm.trans hlatestdel) nofun⟩
    · rw [htext]
      exact agrees_result hpending hagrees hspares hedited prev (hkey ▸ hlive)

theorem follows_writeAll {tx : BufferTransaction} (htx : tx.Sound live)
    (hspares : supply.Spares live) :
    ∀ {writes : List (Identity × PendingBuffer)} {s s' : Materializing},
      (∀ e ∈ writes, tx.bufferWrites.get? e.1 = some e.2) → tx.base.Follows s.states →
      live.AgreesWith s.states → s.writeAll relations supply writes = .ok s' →
      s.states.Follows s'.states ∧ live.AgreesWith s'.states
  | [], s, s', _, _, hagrees, h => by
    rw [← ok.inj h]
    exact ⟨.refl _, hagrees⟩
  | (id, pending) :: writes, s, s', hwrites, hfollows, hagrees, h => by
    unfold writeAll at h
    split at h
    · cases h
    rename_i s₁ hwrite
    obtain ⟨hstep, hagrees'⟩ := follows_write (htx id pending (hwrites _ mem_cons_self)) hfollows
      hagrees hspares hwrite
    obtain ⟨hrest, hagrees''⟩ := follows_writeAll htx hspares
      (fun e he => hwrites e (mem_cons_of_mem _ he)) (hfollows.trans hstep) hagrees' h
    exact ⟨hstep.trans hrest, hagrees''⟩

end Materializing

/-- **A commit publishes later states of the buffers.** -/
theorem follows_materializeBuffers {relations : List RelationMetadata}
    {live current next : BufferStates}
    {tx : BufferTransaction} {supply : Supply} {changes : List BufferChange} (htx : tx.Sound live)
    (hspares : supply.Spares live) (hfollows : tx.base.Follows current)
    (hagrees : live.AgreesWith current)
    (h : materializeBuffers relations current supply tx = .ok (next, changes)) :
    current.Follows next ∧ live.AgreesWith next := by
  unfold materializeBuffers at h
  split at h
  · cases h
  rename_i s hwrites
  obtain ⟨rfl, -⟩ := Prod.mk.inj (ok.inj h)
  exact Materializing.follows_writeAll htx hspares (fun e he => get?_eq_some.mpr he) hfollows
    hagrees hwrites

/-! ## Staged changes -/

/-- **The difference between the buffers of two states.** -/
structure NetBuffers (before after : BufferStates) (changes : List BufferChange) : Prop where
  /-- A change leads from the old text to the new one. -/
  sound : ∀ change ∈ changes, ∃ state, after.get? change.metadata.id = some state ∧
    change.metadata = state.metadata ∧ change.revision = state.revision ∧
    change.deleted = state.deleted ∧
    change.baseRevision = (before.get? change.metadata.id).elim 0 BufferState.revision ∧
    ∀ supply, ∃ text, change.delta.apply
      ((before.get? change.metadata.id).elim Text.empty BufferState.text) supply = .ok text ∧
      text.toText = state.text.toText
  /-- Only a buffer that is new or has a new revision is among the changes. -/
  moved : ∀ change ∈ changes, ∀ previous, before.get? change.metadata.id = some previous →
    previous.revision < change.revision
  /-- Any other buffer is as it was. -/
  complete : ∀ id state, after.get? id = some state → (∀ change ∈ changes, change.metadata.id ≠ id) →
    ∃ previous, before.get? id = some previous ∧ previous.metadata = state.metadata ∧
      previous.revision = state.revision ∧ previous.text.toText = state.text.toText ∧
      previous.deleted = state.deleted
  /-- No buffer is lost. -/
  kept : ∀ id, (before.get? id).isSome = true → (after.get? id).isSome = true
  ordered : changes.Pairwise fun c d => c.metadata.id < d.metadata.id

section Staged

variable {relations : List RelationMetadata} {current staged : BufferStates} {state : BufferState}
  {change : BufferChange} {changes : List BufferChange}

/-- The text that a change of a buffer starts from. -/
def BufferStates.textOf (states : BufferStates) (id : Identity) : Text :=
  (states.get? id).elim Text.empty BufferState.text

theorem stagedChange_none (h : stagedChange current state = .ok none) :
    ∃ previous, current.get? state.metadata.id = some previous ∧
      previous.revision = state.revision := by
  unfold stagedChange at h
  cases hget : current.get? state.metadata.id with
  | none =>
    rw [hget] at h
    dsimp only at h
    split at h <;> exact nomatch h
  | some previous =>
    rw [hget] at h
    dsimp only at h
    by_cases heq : previous.revision = state.revision
    · exact ⟨previous, rfl, heq⟩
    · rw [if_neg heq] at h
      split at h <;> exact nomatch h

theorem stagedChange_some (h : stagedChange current state = .ok (some change)) :
    change.metadata = state.metadata ∧ change.revision = state.revision ∧
      change.deleted = state.deleted ∧
      change.baseRevision = (current.get? state.metadata.id).elim 0 BufferState.revision ∧
      Delta.Of (current.textOf state.metadata.id) state.text change.delta ∧
      ∀ previous, current.get? state.metadata.id = some previous →
        previous.revision ≠ state.revision := by
  unfold stagedChange at h
  unfold BufferStates.textOf
  cases hget : current.get? state.metadata.id with
  | none =>
    rw [hget] at h
    dsimp only at h
    split at h
    · cases h
    rename_i hcomplete
    obtain rfl := some.inj (ok.inj h)
    exact ⟨rfl, rfl, rfl, rfl, Delta.complete_spec hcomplete, nofun⟩
  | some previous =>
    rw [hget] at h
    dsimp only at h
    by_cases heq : previous.revision = state.revision
    · rw [if_pos heq] at h
      cases h
    rw [if_neg heq] at h
    split at h
    · cases h
    rename_i hcomplete
    obtain rfl := some.inj (ok.inj h)
    exact ⟨rfl, rfl, rfl, rfl, Delta.complete_spec hcomplete, fun _ hsome =>
      some.inj hsome ▸ heq⟩

/-- Every change is that of a state, in the order of the states; a state without a change has none. -/
theorem stagedChangesOf_spec : ∀ {states : List BufferState} {changes : List BufferChange},
    stagedChangesOf relations current states = .ok changes →
      (∀ change ∈ changes, ∃ state ∈ states, stagedChange current state = .ok (some change)) ∧
      (∀ state ∈ states, stagedChange current state = .ok none ∨
        ∃ change ∈ changes, stagedChange current state = .ok (some change)) ∧
      (changes.map fun change => change.metadata.id).Sublist
        (states.map fun state => state.metadata.id)
  | [], _, h => by
    obtain rfl := ok.inj h
    exact ⟨nofun, nofun, List.Sublist.slnil⟩
  | state :: states, _, h => by
    unfold stagedChangesOf at h
    split at h
    · cases h
    split at h
    · cases h
    rename_i change hchange
    split at h
    · cases h
    rename_i rest hrest
    obtain rfl := ok.inj h
    obtain ⟨hsound, hcomplete, hsub⟩ := stagedChangesOf_spec hrest
    refine ⟨fun c hc => ?_, fun st hst => ?_, ?_⟩
    · rcases mem_append.mp hc with hc | hc
      · rw [Option.mem_toList] at hc
        exact ⟨state, mem_cons_self, hc ▸ hchange⟩
      · obtain ⟨st, hst, heq⟩ := hsound c hc
        exact ⟨st, mem_cons_of_mem _ hst, heq⟩
    · rcases mem_cons.mp hst with rfl | hst
      · cases change with
        | none => exact .inl hchange
        | some c => exact .inr ⟨c, mem_append_left _ (by simp), hchange⟩
      · rcases hcomplete st hst with hnone | ⟨c, hc, heq⟩
        · exact .inl hnone
        · exact .inr ⟨c, mem_append_right _ hc, heq⟩
    · cases change with
      | none => exact hsub.cons _
      | some c =>
        rw [map_append, map_cons, ← (stagedChange_some hchange).1]
        exact hsub.cons_cons _

/-- **The changes of a staged state are its difference to the live one.** -/
theorem stagedChanges_spec (hfollows : current.Follows staged) (hagrees : current.AgreesWith staged)
    (h : stagedChanges relations current staged = .ok changes) :
      NetBuffers current staged changes := by
  unfold stagedChanges at h
  split at h
  · cases h
  obtain ⟨hsound, hcomplete, hsub⟩ := stagedChangesOf_spec h
  have hget : ∀ state ∈ staged.entries.list.map Prod.snd,
      staged.get? state.metadata.id = some state := by
    intro state hstate
    obtain ⟨⟨id, _⟩, hentry, rfl⟩ := mem_map.mp hstate
    have hsome := get?_eq_some.mpr hentry
    rwa [← staged.keyed id _ hsome] at hsome
  have hshows : ∀ state, staged.get? state.metadata.id = some state →
      (current.textOf state.metadata.id).Shows state.text := by
    intro state hstate
    unfold BufferStates.textOf
    rcases hlive : current.get? state.metadata.id with _ | previous
    · exact (Text.shows_empty state.text)
    exact (hagrees _ previous state hlive hstate).shows
  refine ⟨fun change hchange => ?_, fun change hchange previous hprevious => ?_,
    fun id state hstate hother => ?_, fun id hid => ?_, ?_⟩
  · obtain ⟨state, hmem, hstaged⟩ := hsound change hchange
    obtain ⟨hmetadata, hrevision, hdeleted, hbase, hdelta, -⟩ := stagedChange_some hstaged
    rw [hmetadata]
    exact ⟨state, hget state hmem, rfl, hrevision, hdeleted, hbase, fun supply =>
      hdelta.apply (hshows state (hget state hmem)) supply⟩
  · obtain ⟨state, hmem, hstaged⟩ := hsound change hchange
    obtain ⟨hmetadata, hrevision, -, -, -, hne⟩ := stagedChange_some hstaged
    rw [hmetadata] at hprevious
    obtain ⟨state', hstate', hlater⟩ := hfollows _ previous hprevious
    obtain rfl := some.inj ((hget state hmem).symm.trans hstate')
    rw [hrevision]
    exact lt_of_le_of_ne hlater.le (hne previous hprevious)
  · have hkey := staged.keyed id state hstate
    have hmem : state ∈ staged.entries.list.map Prod.snd :=
      mem_map.mpr ⟨(id, state), get?_eq_some.mp hstate, rfl⟩
    rcases hcomplete state hmem with hnone | ⟨change, hchange, hsome⟩
    · obtain ⟨previous, hprevious, hsame⟩ := stagedChange_none hnone
      rw [hkey] at hprevious
      obtain ⟨state', hstate', hlater⟩ := hfollows id previous hprevious
      obtain rfl := some.inj (hstate.symm.trans hstate')
      obtain ⟨htext, hdeleted⟩ := hlater.same hsame.symm
      exact ⟨previous, hprevious, hlater.metadata.symm, hsame, htext.symm, hdeleted.symm⟩
    · refine absurd ?_ (hother change hchange)
      rw [(stagedChange_some hsome).1, hkey]
  · obtain ⟨previous, hprevious⟩ := Option.isSome_iff_exists.mp hid
    obtain ⟨state, hstate, -⟩ := hfollows id previous hprevious
    rw [hstate]
    rfl
  · have hsorted : (staged.entries.list.map Prod.snd).Pairwise
        fun a b => a.metadata.id < b.metadata.id := by
      refine pairwise_map.mpr (staged.entries.sorted.imp_of_mem fun {a b} ha hb hab => ?_)
      rwa [staged.keyed a.1 a.2 (get?_eq_some.mpr ha),
        staged.keyed b.1 b.2 (get?_eq_some.mpr hb)]
    exact pairwise_map.mp ((pairwise_map.mpr hsorted).sublist hsub)

end Staged

end Mica
