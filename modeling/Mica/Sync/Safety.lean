import Mica.Sync.Diff
import Mica.Sync.View

/-!
# Sync/Safety — equal pairs mean equal trees

`Signed log view revision signature tree` says that the pair was made from this tree, and that the
making is on record.  The invariant `SyncSystem.Sound` is that every pair anywhere — in the host's
views, at the client, on an envelope queued or sent, in a handler that has yet to send or store it —
is signed for the tree that stands with it; for a delta, both of its pairs are, and its patches lead
from the one tree to the other.  Nothing relates the revisions of different handlers: two of them may
give the same revision to different trees.  Without collisions a pair then names its tree, which is
what a delta needs to be applied to the tree it was made for, and what `SyncSystem.run_sound` gives
at the end.
-/

open List Option

namespace Mica

variable {log log' : List (UInt64 × UInt64 × DomNode)} {viewId revision signature : UInt64}
  {tree tree' : DomNode}

/-- **No two trees that were signed for one view and revision have the same signature**, unless
their payloads are the same. -/
def NoCollision (log : List (UInt64 × UInt64 × DomNode)) : Prop :=
  ∀ viewId revision tree tree', (viewId, revision, tree) ∈ log → (viewId, revision, tree') ∈ log →
    syncPayloadSignature revision (snapshotPayloadJson viewId revision tree) =
      syncPayloadSignature revision (snapshotPayloadJson viewId revision tree') →
    snapshotPayloadJson viewId revision tree = snapshotPayloadJson viewId revision tree'

/-- A part of a log without collisions has none. -/
theorem NoCollision.mono (h : NoCollision log') (hsub : log ⊆ log') : NoCollision log :=
  fun v r t t' ht ht' => h v r t t' (hsub ht) (hsub ht')

/-- The pair was made from the tree. -/
structure Signed (log : List (UInt64 × UInt64 × DomNode)) (viewId revision signature : UInt64)
    (tree : DomNode) : Prop where
  mem : (viewId, revision, tree) ∈ log
  signature_eq : signature = syncPayloadSignature revision (snapshotPayloadJson viewId revision tree)
  ne_zero : revision ≠ 0

/-- What was signed stays signed as the log grows. -/
theorem Signed.mono (h : Signed log viewId revision signature tree) (hsub : log ⊆ log') :
    Signed log' viewId revision signature tree :=
  ⟨hsub h.mem, h.signature_eq, h.ne_zero⟩

/-- **A pair names its tree.** -/
theorem Signed.unique (hlog : NoCollision log) (h : Signed log viewId revision signature tree)
    (h' : Signed log viewId revision signature tree') : tree = tree' :=
  snapshotPayloadJson_inj
    (hlog _ _ _ _ h.mem h'.mem (h.signature_eq.symm.trans h'.signature_eq))

/-- A pair with its tree, or the pair of zeros with none. -/
def Holds (log : List (UInt64 × UInt64 × DomNode)) (viewId revision signature : UInt64) :
    Option DomNode → Prop
  | none => revision = 0 ∧ signature = 0
  | some tree => Signed log viewId revision signature tree

/-- What is held stays held as the log grows. -/
theorem Holds.mono {held : Option DomNode} (h : Holds log viewId revision signature held)
    (hsub : log ⊆ log') : Holds log' viewId revision signature held := by
  cases held with
  | none => exact h
  | some tree => exact Signed.mono h hsub

/-- Two that hold one pair hold one tree. -/
theorem Holds.unique (hlog : NoCollision log) {held held' : Option DomNode}
    (h : Holds log viewId revision signature held) (h' : Holds log viewId revision signature held') :
    held = held' := by
  match held, held' with
  | none, none => rfl
  | some tree, some tree' => rw [Signed.unique hlog h h']
  | none, some tree' => exact absurd h.1 (Signed.ne_zero h')
  | some tree, none => exact absurd h'.1 (Signed.ne_zero h)

/-! ## Envelopes, views and handlers -/

/-- What the host may send: a snapshot of its pair's tree, or patches between its pairs' trees. -/
def SyncEnvelope.Sound (log : List (UInt64 × UInt64 × DomNode)) (e : SyncEnvelope) : Prop :=
  match e.kind, e.payload with
  | .viewSnapshot, .snapshot _ _ root =>
    Signed log e.viewId e.serverRevision e.serverSignature root
  | .viewDelta, .domPatch _ _ patches => ∃ base tree,
    Signed log e.viewId e.clientRevision e.clientSignature base ∧
      Signed log e.viewId e.serverRevision e.serverSignature tree ∧
      DomNode.applyPatches patches base = some tree
  | _, _ => True

/-- An envelope stays sound as the log grows. -/
theorem SyncEnvelope.Sound.mono {e : SyncEnvelope} (h : e.Sound log) (hsub : log ⊆ log') :
    e.Sound log' := by
  unfold SyncEnvelope.Sound at h ⊢
  split
  · next hkind hpayload =>
    rw [hkind, hpayload] at h
    exact h.mono hsub
  · next hkind hpayload =>
    rw [hkind, hpayload] at h
    obtain ⟨base, tree, hbase, htree, happly⟩ := h
    exact ⟨base, tree, hbase.mono hsub, htree.mono hsub, happly⟩
  · trivial

/-- The host's pair of a view is signed for the tree it rendered last. -/
def ActiveViewState.Sound (log : List (UInt64 × UInt64 × DomNode)) (viewId : UInt64)
    (view : ActiveViewState) : Prop :=
  Holds log viewId view.serverRevision view.serverSignature view.lastTree

/-- The views and the queued envelopes of a session are signed. -/
structure SessionState.Sound (log : List (UInt64 × UInt64 × DomNode)) (s : SessionState) : Prop where
  views : ∀ e ∈ s.views, e.2.Sound log e.1.2
  messages : ∀ e ∈ s.messages, e.Sound log

/-- A session stays sound as the log grows. -/
theorem SessionState.Sound.mono {s : SessionState} (h : s.Sound log) (hsub : log ⊆ log') :
    s.Sound log' :=
  ⟨fun e he => Holds.mono (h.views e he) hsub, fun e he => (h.messages e he).mono hsub⟩

/-- **Whatever a handler is told, it signs what it sends and stores.**  The record may have grown
before each region is entered. -/
def Handler.Sound (log : List (UInt64 × UInt64 × DomNode)) : Handler → Prop
  | .done => True
  | .read next => ∀ log', log ⊆ log' → ∀ s : Option SessionState,
      (∀ x ∈ s, SessionState.Sound log' x) → (next s).Sound log'
  | .update f next =>
    (∀ log', log ⊆ log' → ∀ s : SessionState, s.Sound log' → (f s).Sound log') ∧ next.Sound log
  | .send envelope next => envelope.Sound log ∧ next.Sound log
  | .render next => ∀ tree, (next tree).Sound log
  | .sign viewId revision tree next => next.Sound ((viewId, revision, tree) :: log)
  | .ask next => ∀ answer, (next answer).Sound log
  | .pick next => ∀ n, (next n).Sound log

/-- A handler stays sound as the log grows. -/
theorem Handler.Sound.mono : ∀ {h : Handler} {log log' : List (UInt64 × UInt64 × DomNode)},
    h.Sound log → log ⊆ log' → h.Sound log'
  | .done, _, _, _, _ => trivial
  | .read _, _, _, h, hsub => fun log' hlog' => h log' (List.Subset.trans hsub hlog')
  | .update _ _, _, _, h, hsub =>
    ⟨fun log' hlog' => h.1 log' (List.Subset.trans hsub hlog'), h.2.mono hsub⟩
  | .send _ _, _, _, h, hsub => ⟨h.1.mono hsub, h.2.mono hsub⟩
  | .render _, _, _, h, hsub => fun tree => (h tree).mono hsub
  | .sign _ _ _ next, _, _, h, hsub =>
    (show next.Sound _ from h).mono (cons_subset_cons _ hsub)
  | .ask _, _, _, h, hsub => fun answer => (h answer).mono hsub
  | .pick _, _, _, h, hsub => fun n => (h n).mono hsub

/-! ## What the regions do to the session -/

namespace SessionState

variable {s : SessionState} {sessionId : UInt64}

theorem sound_empty : empty.Sound log :=
  ⟨nofun, nofun⟩

theorem mem_of_view? {view : ActiveViewState} (h : s.view? sessionId viewId = some view) :
    ((sessionId, viewId), view) ∈ s.views := by
  obtain ⟨e, hfind, rfl⟩ := map_eq_some_iff.mp h
  have hkey : e.1 = (sessionId, viewId) := by simpa using find?_some hfind
  rw [← hkey]
  exact mem_of_find?_eq_some hfind

theorem Sound.view (h : s.Sound log) {view : ActiveViewState}
    (hview : s.view? sessionId viewId = some view) : view.Sound log viewId :=
  h.views _ (mem_of_view? hview)

theorem Sound.view_getD (h : s.Sound log) :
    ((s.view? sessionId viewId).getD .default).Sound log viewId := by
  rcases hview : s.view? sessionId viewId with _ | view
  · exact ⟨rfl, rfl⟩
  exact h.view hview

/-- A view is changed to a sound one. -/
theorem Sound.modifyView (h : s.Sound log) {f : ActiveViewState → ActiveViewState}
    (hf : ∀ view : ActiveViewState, view.Sound log viewId → (f view).Sound log viewId) :
    (s.modifyView sessionId viewId f).Sound log := by
  refine ⟨fun e he => ?_, h.messages⟩
  rcases mem_cons.mp he with rfl | he
  · exact hf _ h.view_getD
  · exact h.views e (mem_of_mem_filter he)

theorem Sound.recordIncomingView (h : s.Sound log) (envelope : SyncEnvelope) :
    (s.recordIncomingView envelope).Sound log := by
  unfold SessionState.recordIncomingView
  split
  · exact h.modifyView fun _ hview => hview
  · exact h

/-- A rendering that was signed is stored. -/
theorem Sound.storeRenderedView (h : s.Sound log)
    (hmem : (viewId, revision, tree) ∈ log) (hrevision : revision ≠ 0) :
    (s.storeRenderedView sessionId viewId (renderedSyncView viewId revision tree)).Sound log :=
  h.modifyView fun _ _ => ⟨hmem, rfl, hrevision⟩

/-- A sound envelope is queued, or replaces the one of its view. -/
theorem Sound.sendSyncEnvelope (h : s.Sound log) {envelope : SyncEnvelope}
    (he : envelope.Sound log) : (s.sendSyncEnvelope envelope).Sound log := by
  have hsingle : ∀ e ∈ [envelope], e.Sound log := fun e hmem => by
    rwa [mem_singleton.mp hmem]
  unfold SessionState.sendSyncEnvelope
  split
  · exact ⟨h.views, fun e hmem => (mem_append.mp hmem).elim
      (fun hq => h.messages e (mem_of_mem_filter hq)) (hsingle e)⟩
  · exact ⟨h.views, fun e hmem => (mem_append.mp hmem).elim (h.messages e) (hsingle e)⟩

end SessionState

/-- Zero is never the next revision. -/
theorem nextRevision_ne_zero (a b : UInt64) : nextRevision a b ≠ 0 := by
  show (if saturatingSucc (max a b) ≤ 1 then 1 else saturatingSucc (max a b)) ≠ 0
  split
  · decide
  · next hlarge =>
    intro hzero
    rw [hzero] at hlarge
    exact hlarge (by decide)

theorem getD_nextViewRevision_ne_zero (view : Option ActiveViewState) :
    (view.map nextViewRevision).getD 1 ≠ 0 := by
  cases view with
  | none => decide
  | some view => exact nextRevision_ne_zero _ _

/-! ## The handlers -/

namespace Handler

variable {next : Handler} {sessionId : UInt64}

theorem sound_endpointSession (h : next.Sound log) : (endpointSession next).Sound log := by
  intro log' hsub s _
  dsimp only
  split
  · exact h.mono hsub
  · trivial

theorem sound_signed {rest : RenderedSyncView → Handler}
    (h : (rest (renderedSyncView viewId revision tree)).Sound ((viewId, revision, tree) :: log)) :
    (signed viewId revision tree rest).Sound log := h

/-- A tree that has been signed may be stored, by any handler that holds it. -/
theorem sound_storeRenderedSyncView (hmem : (viewId, revision, tree) ∈ log) (hrevision : revision ≠ 0)
    (h : next.Sound log) :
    (storeRenderedSyncView sessionId viewId (renderedSyncView viewId revision tree) next).Sound
      log :=
  ⟨fun _ hsub _ hs => hs.storeRenderedView (hsub hmem) hrevision, h⟩

/-- A snapshot of a signed tree is sound. -/
theorem sound_snapshotEnvelope {clientRevision clientSignature : UInt64}
    (hmem : (viewId, revision, tree) ∈ log) (hrevision : revision ≠ 0) :
    (snapshotEnvelope sessionId viewId clientRevision clientSignature
      (renderedSyncView viewId revision tree)).Sound log :=
  show Signed log viewId revision _ tree from ⟨hmem, rfl, hrevision⟩

/-- It may be sent. -/
theorem sound_sendSnapshot {clientRevision clientSignature : UInt64}
    (hmem : (viewId, revision, tree) ∈ log) (hrevision : revision ≠ 0) :
    (sendSnapshot sessionId viewId clientRevision clientSignature
      (renderedSyncView viewId revision tree)).Sound log :=
  ⟨sound_snapshotEnvelope hmem hrevision, sound_storeRenderedSyncView hmem hrevision trivial⟩

/-- A fresh rendering: what follows may use that it is signed. -/
theorem sound_renderSyncView {rest : RenderedSyncView → Handler}
    (h : ∀ log' revision tree, log ⊆ log' → (viewId, revision, tree) ∈ log' → revision ≠ 0 →
      (rest (renderedSyncView viewId revision tree)).Sound log') :
    (renderSyncView viewId rest).Sound log := by
  intro n log' hsub s _
  refine sound_endpointSession fun tree => sound_signed ?_
  exact h _ _ tree (List.Subset.trans hsub (subset_cons_self _ _)) mem_cons_self
    (getD_nextViewRevision_ne_zero _)

theorem sound_viewSubscriptions (h : next.Sound log) :
    (viewSubscriptions sessionId viewId next).Sound log := by
  intro log' hsub s _
  dsimp only
  split
  · refine ⟨fun _ _ _ hs => hs.modifyView fun _ hview => hview, fun ok => ?_⟩
    dsimp only
    split
    · exact h.mono hsub
    · trivial
  · exact h.mono hsub

theorem sound_sendRecoverySnapshotFromRendered {event : DomEventPayload}
    (hmem : (event.viewId, revision, tree) ∈ log) (hrevision : revision ≠ 0) :
    (sendRecoverySnapshotFromRendered event
      (renderedSyncView event.viewId revision tree)).Sound log :=
  sound_sendSnapshot hmem hrevision

/-- The pair of the state a refresh read is signed for the tree the refresh compares with. -/
theorem sound_refreshActiveSyncViewFor {active : ActiveViewState} {forceAck : Bool}
    (hactive : active.Sound log viewId) (h : next.Sound log) :
    (refreshActiveSyncViewFor sessionId viewId active forceAck next).Sound log := by
  refine sound_endpointSession fun tree => ?_
  dsimp only
  split
  · next hsame =>
    split
    · -- the acknowledgement of an unchanged tree is a delta with no patch
      obtain ⟨last, hlast, -⟩ := map_eq_some_iff.mp hsame
      have hsigned : Signed log viewId active.serverRevision active.serverSignature last := by
        rwa [ActiveViewState.Sound, hlast] at hactive
      exact ⟨⟨last, last, hsigned, hsigned, rfl⟩, h⟩
    · exact h
  · intro log' hsub s _
    have hmem : (viewId, nextViewRevision active, tree) ∈ log' := hsub mem_cons_self
    have hrevision : nextViewRevision active ≠ 0 := nextRevision_ne_zero _ _
    have hlog : log ⊆ log' := List.Subset.trans (subset_cons_self _ _) hsub
    refine ⟨?_, sound_storeRenderedSyncView hmem hrevision (h.mono hlog)⟩
    split
    · exact sound_snapshotEnvelope hmem hrevision
    split
    · next patches hpatches =>
      obtain ⟨last, hlast, rfl⟩ := map_eq_some_iff.mp hpatches
      have hsigned : Signed log viewId active.serverRevision active.serverSignature last := by
        rwa [ActiveViewState.Sound, hlast] at hactive
      exact ⟨last, tree, hsigned.mono hlog, ⟨hmem, rfl, hrevision⟩,
        DomNode.applyPatches_diff last tree⟩
    · exact sound_snapshotEnvelope hmem hrevision

/-- A refresh reads the view, and signs what it sends. -/
theorem sound_refreshActiveSyncView {forceAck : Bool} (h : next.Sound log) :
    (refreshActiveSyncView sessionId viewId forceAck next).Sound log := by
  intro log' hsub s hs
  dsimp only
  split
  · next active hactive =>
    obtain ⟨x, hx, hview⟩ := bind_eq_some_iff.mp hactive
    exact sound_refreshActiveSyncViewFor ((hs x hx).view hview) (h.mono hsub)
  · exact h.mono hsub

theorem sound_syncEvent (event : DomEventPayload) : (syncEvent event).Sound log := by
  refine sound_endpointSession fun answer => ?_
  dsimp only
  split
  · exact sound_refreshActiveSyncView trivial
  · trivial

theorem sound_routeDomEvent (event : DomEventPayload) : (routeDomEvent event).Sound log := by
  intro log' hsub s _
  dsimp only
  split
  · exact sound_renderSyncView fun _ _ _ _ hmem hrevision =>
      sound_sendRecoverySnapshotFromRendered hmem hrevision
  split
  · refine sound_renderSyncView fun _ _ _ _ hmem hrevision => ?_
    split
    · exact sound_sendRecoverySnapshotFromRendered hmem hrevision
    · exact sound_storeRenderedSyncView hmem hrevision (sound_syncEvent event)
  · exact sound_syncEvent event

theorem sound_haveViewSnapshot (envelope : SyncEnvelope) (tree : DomNode) :
    (haveViewSnapshot envelope tree).Sound log := by
  intro log' hsub s _
  exact sound_sendSnapshot mem_cons_self (getD_nextViewRevision_ne_zero _)

/-- What a client says it has decides what it is sent. -/
theorem sound_haveView (envelope : SyncEnvelope) : (haveView envelope).Sound log := by
  intro log' hsub s _
  dsimp only
  split
  · trivial
  refine sound_endpointSession fun tree => ?_
  dsimp only
  split
  · next hpos =>
    -- the client's pair is stored only once it has been made again from the tree just rendered
    refine sound_signed ?_
    split
    · exact sound_storeRenderedSyncView mem_cons_self (UInt64.ne_of_lt hpos).symm trivial
    · exact sound_haveViewSnapshot envelope tree
  · exact sound_haveViewSnapshot envelope tree

/-- A client that needs a view is sent a fresh rendering. -/
theorem sound_needView (envelope : SyncEnvelope) : (needView envelope).Sound log :=
  sound_renderSyncView fun _ _ _ _ hmem hrevision => sound_sendSnapshot hmem hrevision

theorem sound_routeSyncEnvelope (envelope : SyncEnvelope) :
    (routeSyncEnvelope envelope).Sound log := by
  refine ⟨fun _ _ _ hs => hs.recordIncomingView envelope, ?_⟩
  split
  on_goal 1 => refine sound_viewSubscriptions ?_
  on_goal 2 => refine sound_viewSubscriptions ?_
  all_goals
    split
    · trivial
    · exact sound_routeDomEvent _
    · split
      · exact sound_haveView envelope
      · exact sound_needView envelope
      · trivial
      · trivial

theorem sound_processDriverEvent : ∀ refreshes : List (UInt64 × UInt64 × Bool × Bool),
    (processDriverEvent refreshes).Sound log
  | [] => trivial
  | (sessionId, viewId, forceAck, resynchronize) :: refreshes => by
    rw [processDriverEvent]
    split
    · exact sound_viewSubscriptions
        (sound_refreshActiveSyncView (sound_processDriverEvent refreshes))
    · exact sound_refreshActiveSyncView (sound_processDriverEvent refreshes)

end Handler

/-! ## Runs -/

/-- The client's pair stays signed for its tree: a delta whose base pair is the client's was made for
the client's tree. -/
theorem ClientView.sound_handleEnvelope (hlog : NoCollision log) {c : ClientView}
    {envelope : SyncEnvelope} (henvelope : envelope.Sound log)
    (hc : Holds log envelope.viewId c.revision c.signature c.tree) :
    Holds log envelope.viewId (c.handleEnvelope envelope).revision
      (c.handleEnvelope envelope).signature (c.handleEnvelope envelope).tree := by
  unfold ClientView.handleEnvelope
  unfold SyncEnvelope.Sound at henvelope
  split
  · next hkind hpayload =>
    rwa [hkind, hpayload] at henvelope
  · next hkind hpayload =>
    rw [hkind, hpayload] at henvelope
    obtain ⟨base, tree, hbase, htree, happly⟩ := henvelope
    split
    · next hpair =>
      have hbase' : Holds log envelope.viewId c.revision c.signature (some base) := by
        rwa [hpair.1, hpair.2]
      have hsame : c.tree = some base := Holds.unique hlog hc hbase'
      rwa [hsame, bind_some, happly]
    · exact hc
  · exact hc

namespace SyncSystem

/-- **Every pair is signed for the tree that stands with it.** -/
structure Sound (sys : SyncSystem) : Prop where
  session : ∀ s ∈ sys.session, s.Sound sys.rendered
  handlers : ∀ h ∈ sys.handlers, h.Sound sys.rendered
  wire : ∀ e ∈ sys.wire, e.Sound sys.rendered
  client : ∀ key, Holds sys.rendered key.2 (sys.client key).revision (sys.client key).signature
    (sys.client key).tree

/-- At the start nothing is held. -/
theorem sound_init : init.Sound where
  session := fun s hs => by
    rw [← some.inj hs]
    exact SessionState.sound_empty
  handlers := nofun
  wire := nofun
  client := fun _ => ⟨rfl, rfl⟩

variable {sys : SyncSystem}

/-- A handler goes on as a sound one. -/
theorem Sound.set_handler (h : sys.Sound) {i : ℕ} {handler : Handler}
    (hhandler : handler.Sound sys.rendered) :
    ∀ x ∈ sys.handlers.set i handler, x.Sound sys.rendered := by
  intro x hx
  rcases mem_or_eq_of_mem_set hx with hx | rfl
  · exact h.handlers x hx
  · exact hhandler

theorem Sound.append_handler (h : sys.Sound) {handler : Handler}
    (hhandler : handler.Sound sys.rendered) :
    ({ sys with handlers := sys.handlers ++ [handler] } : SyncSystem).Sound :=
  { h with
    handlers := fun x hx => (mem_append.mp hx).elim (h.handlers x) fun hx => by
      rw [mem_singleton.mp hx]
      exact hhandler }

/-- A handler that is resumed keeps the system sound. -/
theorem Sound.advance (h : sys.Sound) (i : ℕ) {handler : Handler}
    (hhandler : handler.Sound sys.rendered) (answer : Answer) :
    (sys.advance i handler answer).Sound := by
  unfold SyncSystem.advance
  split
  · exact { h with handlers := h.set_handler (hhandler _ (List.Subset.refl _) _ h.session) }
  · next f next =>
    refine { h with session := fun s hs => ?_, handlers := h.set_handler hhandler.2 }
    obtain ⟨s₀, hs₀, rfl⟩ := map_eq_some_iff.mp hs
    exact hhandler.1 _ (List.Subset.refl _) s₀ (h.session s₀ hs₀)
  · next envelope next =>
    refine { h with session := fun s hs => ?_, handlers := h.set_handler hhandler.2 }
    obtain ⟨s₀, hs₀, rfl⟩ := map_eq_some_iff.mp hs
    exact (h.session s₀ hs₀).sendSyncEnvelope hhandler.1
  · next viewId revision tree next =>
    -- the record grows, and all that was signed stays so
    have hsub : sys.rendered ⊆ (viewId, revision, tree) :: sys.rendered := subset_cons_self _ _
    refine
      { session := fun s hs => (h.session s hs).mono hsub
        handlers := fun x hx => ?_
        wire := fun e he => (h.wire e he).mono hsub
        client := fun key => (h.client key).mono hsub }
    rcases mem_or_eq_of_mem_set hx with hx | rfl
    · exact (h.handlers x hx).mono hsub
    · exact hhandler
  · exact { h with handlers := h.set_handler (hhandler _) }
  · exact { h with handlers := h.set_handler (hhandler _) }
  · exact { h with handlers := h.set_handler (hhandler _) }
  · exact { h with handlers := h.set_handler trivial }
  · exact { h with handlers := h.set_handler trivial }
  · exact h

/-- **Every action keeps every pair signed for its tree.** -/
theorem Sound.step (h : sys.Sound) (hlog : NoCollision sys.rendered) (action : SyncAction) :
    (sys.step action).Sound := by
  cases action with
  | receive envelope => exact h.append_handler (Handler.sound_routeSyncEnvelope envelope)
  | domEvent event => exact h.append_handler (Handler.sound_routeDomEvent event)
  | driverEvent refreshes => exact h.append_handler (Handler.sound_processDriverEvent refreshes)
  | resume i answer =>
    simp only [SyncSystem.step]
    split
    · next handler hi => exact h.advance i (h.handlers _ (mem_of_getElem? hi)) answer
    · exact h
  | drain n =>
    simp only [SyncSystem.step]
    split
    · next s hs =>
      have hsound := h.session s hs
      refine { h with session := fun x hx => ?_, wire := fun e he => ?_ }
      · rw [← some.inj hx]
        exact ⟨hsound.views, fun e he => hsound.messages e (mem_of_mem_drop he)⟩
      · exact (mem_append.mp he).elim (h.wire e) fun he =>
          hsound.messages e (mem_of_mem_take he)
    · exact h
  | deliver i =>
    simp only [SyncSystem.step]
    split
    · next envelope hi =>
      refine { h with client := fun key => ?_ }
      dsimp only
      split
      · next hkey =>
        subst hkey
        exact ClientView.sound_handleEnvelope hlog (h.wire _ (mem_of_getElem? hi))
          (h.client _)
      · exact h.client key
    · exact h
  | close => exact { h with session := fun _ hs => by cases hs }
  | connect =>
    simp only [SyncSystem.step]
    split
    · exact h
    · refine { h with session := fun s hs => ?_, handlers := nofun }
      rw [← some.inj hs]
      exact SessionState.sound_empty

/-- The log of renderings only grows. -/
theorem rendered_subset_step (sys : SyncSystem) (action : SyncAction) :
    sys.rendered ⊆ (sys.step action).rendered := by
  cases action with
  | resume i answer =>
    simp only [SyncSystem.step]
    split
    · unfold SyncSystem.advance
      split
      all_goals first
        | exact List.Subset.refl _
        | exact subset_cons_self _ _
    · exact List.Subset.refl _
  | drain n =>
    simp only [SyncSystem.step]
    split <;> exact List.Subset.refl _
  | deliver i =>
    simp only [SyncSystem.step]
    split <;> exact List.Subset.refl _
  | connect =>
    simp only [SyncSystem.step]
    split <;> exact List.Subset.refl _
  | receive | domEvent | driverEvent | close => exact List.Subset.refl _

theorem rendered_subset_run (actions : List SyncAction) (sys : SyncSystem) :
    sys.rendered ⊆ (sys.run actions).rendered := by
  induction actions generalizing sys with
  | nil => exact List.Subset.refl _
  | cons action actions ih => exact List.Subset.trans (rendered_subset_step sys action) (ih _)

/-- The invariant along a run in which no two rendered trees collide. -/
theorem Sound.run : ∀ (actions : List SyncAction) {sys : SyncSystem}, sys.Sound →
    NoCollision (sys.run actions).rendered → (sys.run actions).Sound
  | [], _, h, _ => h
  | action :: actions, sys, h, hlog => by
    have hnow : NoCollision sys.rendered := hlog.mono (rendered_subset_run (action :: actions) sys)
    exact Sound.run actions (h.step hnow action) hlog

/-- **Equal pairs mean equal trees.**  However the handlers interleave and whatever the wire does
with the envelopes, when the client's pair for a view is the host's, so is its tree. -/
theorem tree_eq_lastTree_of_pair_eq (actions : List SyncAction)
    (hlog : NoCollision (init.run actions).rendered) (sessionId viewId : UInt64)
    {s : SessionState} {view : ActiveViewState} (hs : (init.run actions).session = some s)
    (hview : s.view? sessionId viewId = some view)
    (hrevision : ((init.run actions).client (sessionId, viewId)).revision = view.serverRevision)
    (hsignature : ((init.run actions).client (sessionId, viewId)).signature =
      view.serverSignature) :
    ((init.run actions).client (sessionId, viewId)).tree = view.lastTree := by
  have hsound := sound_init.run actions hlog
  have hclient := hsound.client (sessionId, viewId)
  rw [hrevision, hsignature] at hclient
  exact Holds.unique hlog hclient ((hsound.session s hs).view hview)

/-- Two refreshes that read the same state give the same revision to different trees; the later
envelope replaces the earlier one in the queue, and what reaches the client is delivered twice. -/
def racingRefreshes : List SyncAction :=
  [.receive ⟨.needView, 7, 11, 0, 0, 0, 0, .other⟩,
    .resume 0 .go, .resume 0 .go, .resume 0 .go, .resume 0 (.bool true), .resume 0 (.order 0),
    .resume 0 .go, .resume 0 .go, .resume 0 (.tree (.text "a")), .resume 0 .go, .resume 0 .go,
    .resume 0 .go, .drain 1, .deliver 0,
    .driverEvent [(7, 11, false, false)], .driverEvent [(7, 11, false, false)],
    .resume 1 .go, .resume 2 .go, .resume 1 .go, .resume 2 .go,
    .resume 1 (.tree (.text "b")), .resume 2 (.tree (.text "c")), .resume 2 .go, .resume 1 .go,
    .resume 1 .go, .resume 1 .go, .resume 2 .go, .resume 1 .go, .resume 2 .go, .resume 2 .go,
    .drain 1, .deliver 1, .deliver 0, .deliver 1]

theorem noCollision_racingRefreshes : NoCollision (init.run racingRefreshes).rendered := by
  have hlog : (init.run racingRefreshes).rendered =
      [(11, 2, .text "b"), (11, 2, .text "c"), (11, 1, .text "a")] := by decide +kernel
  rw [hlog]
  have hbc : syncPayloadSignature 2 (snapshotPayloadJson 11 2 (.text "b")) ≠
      syncPayloadSignature 2 (snapshotPayloadJson 11 2 (.text "c")) := by decide +kernel
  intro v r t t' ht ht' hsig
  simp only [mem_cons, Prod.mk.injEq, not_mem_nil, or_false] at ht ht'
  rcases ht with ⟨rfl, rfl, rfl⟩ | ⟨rfl, rfl, rfl⟩ | ⟨rfl, rfl, rfl⟩
  · rcases ht' with ⟨-, -, rfl⟩ | ⟨-, -, rfl⟩ | ⟨-, hr, -⟩
    · rfl
    · exact absurd hsig hbc
    · exact absurd hr (by decide)
  · rcases ht' with ⟨-, -, rfl⟩ | ⟨-, -, rfl⟩ | ⟨-, hr, -⟩
    · exact absurd hsig.symm hbc
    · rfl
    · exact absurd hr (by decide)
  · rcases ht' with ⟨-, hr, -⟩ | ⟨-, hr, -⟩ | ⟨-, -, rfl⟩
    · exact absurd hr (by decide)
    · exact absurd hr (by decide)
    · rfl

/-- After the race both sides show the later tree, under revision 2. -/
theorem tree_eq_lastTree_racingRefreshes :
    ((init.run racingRefreshes).client (7, 11)).revision = 2 ∧
      ((init.run racingRefreshes).client (7, 11)).tree = some (.text "c") := by
  obtain ⟨s, hs⟩ : ∃ s, (init.run racingRefreshes).session = some s :=
    isSome_iff_exists.mp (by decide +kernel)
  have hview : (init.run racingRefreshes).session.bind (SessionState.view? 7 11) =
      some ⟨2, (renderedSyncView 11 2 (.text "c")).signature, 2,
        (renderedSyncView 11 2 (.text "c")).signature, some (.text "c")⟩ := by decide +kernel
  have hrevision : ((init.run racingRefreshes).client (7, 11)).revision = 2 := by decide +kernel
  have hsignature : ((init.run racingRefreshes).client (7, 11)).signature =
      (renderedSyncView 11 2 (.text "c")).signature := by decide +kernel
  rw [hs, bind_some] at hview
  exact ⟨hrevision, tree_eq_lastTree_of_pair_eq racingRefreshes noCollision_racingRefreshes 7 11 hs
    hview hrevision hsignature⟩

/-- **A client shows what was rendered**: its tree for a view is nothing yet, or one that the host
rendered for that view and signed with the client's pair; every envelope, on the wire or waiting,
carries such a tree or patches that lead from one to another. -/
theorem client_shows_rendered (actions : List SyncAction)
    (hlog : NoCollision (init.run actions).rendered) :
    (∀ key, Holds (init.run actions).rendered key.2 ((init.run actions).client key).revision
      ((init.run actions).client key).signature ((init.run actions).client key).tree) ∧
    (∀ e ∈ (init.run actions).wire, e.Sound (init.run actions).rendered) ∧
    ∀ s ∈ (init.run actions).session, ∀ e ∈ s.messages, e.Sound (init.run actions).rendered := by
  have hsound := sound_init.run actions hlog
  exact ⟨hsound.client, hsound.wire, fun s hs => (hsound.session s hs).messages⟩

theorem client_shows_rendered_racingRefreshes :
    Holds (init.run racingRefreshes).rendered 11 ((init.run racingRefreshes).client (7, 11)).revision
      ((init.run racingRefreshes).client (7, 11)).signature
      ((init.run racingRefreshes).client (7, 11)).tree :=
  (client_shows_rendered racingRefreshes noCollision_racingRefreshes).1 (7, 11)

end SyncSystem

end Mica
