import Mica.Sync.Dom

/-!
# Sync/View — a session's synced views, its handlers and its client

The host keeps for each view of a session the pair `(revision, signature)` and the tree it last
rendered, and the pair it believes the client has.  Messages and driver events start **handlers**
that run at the same time: between two awaits a handler takes the session's lock for one short
region after another, so a `Handler` is written as what it does next — a locked read or write, a
send, a rendering awaited from the program — and the rest as a function of the answer.  Any handler
may go on at any moment, so handlers that started from the same state finish in either order.

Envelopes wait in an output queue, where a snapshot replaces what is queued for its view, and go
from there to the wire; the wire keeps all it was ever given, so that `deliver` can lose, repeat and
reorder.  The client takes every snapshot, and a delta only on the pair it starts from.
-/

namespace Mica

/-! ## Envelopes -/

inductive SyncMessageKind where
  | needView
  | haveView
  | viewSnapshot
  | viewDelta
  deriving DecidableEq

/-- A DOM event, as far as the views are concerned. -/
structure DomEventPayload where
  sessionId : UInt64
  viewId : UInt64
  revision : UInt64
  signature : UInt64
  refresh : Bool
  deriving DecidableEq

/-- What a payload is once decoded; `malformed` is an event payload that does not decode. -/
inductive SyncPayload where
  | snapshot (view revision : UInt64) (root : DomNode)
  | domPatch (view revision : UInt64) (patches : List DomPatch)
  | domEvent (event : DomEventPayload)
  | malformed
  | other
  deriving DecidableEq

structure SyncEnvelope where
  kind : SyncMessageKind
  sessionId : UInt64
  viewId : UInt64
  clientRevision : UInt64
  clientSignature : UInt64
  serverRevision : UInt64
  serverSignature : UInt64
  payload : SyncPayload
  deriving DecidableEq

/-! ## The state of a session -/

structure ActiveViewState where
  clientRevision : UInt64
  clientSignature : UInt64
  serverRevision : UInt64
  serverSignature : UInt64
  lastTree : Option DomNode
  deriving DecidableEq

def ActiveViewState.default : ActiveViewState := ⟨0, 0, 0, 0, none⟩

structure RenderedSyncView where
  revision : UInt64
  signature : UInt64
  tree : DomNode
  payload : SyncPayload

def renderedSyncView (viewId revision : UInt64) (tree : DomNode) : RenderedSyncView where
  revision := revision
  signature := syncPayloadSignature revision (snapshotPayloadJson viewId revision tree)
  tree := tree
  payload := .snapshot viewId revision tree

/-- The views by session and view id, and the envelopes that wait for the writer. -/
structure SessionState where
  views : List ((UInt64 × UInt64) × ActiveViewState)
  messages : List SyncEnvelope
  deriving DecidableEq

namespace SessionState

def empty : SessionState := ⟨[], []⟩

def view? (sessionId viewId : UInt64) (s : SessionState) : Option ActiveViewState :=
  (s.views.find? fun e => e.1 = (sessionId, viewId)).map Prod.snd

/-- Change a view, which is made with the default state when it is not there. -/
def modifyView (sessionId viewId : UInt64) (f : ActiveViewState → ActiveViewState)
    (s : SessionState) : SessionState :=
  { s with
    views := ((sessionId, viewId), f ((s.view? sessionId viewId).getD .default)) ::
      s.views.filter fun e => e.1 ≠ (sessionId, viewId) }

/-- The view of this id that a walk over the sessions meets first; the walk is in hash order, and
`n` says which it is. -/
def findView (n : ℕ) (viewId : UInt64) (s : SessionState) : Option ActiveViewState :=
  let found := s.views.filter fun e => e.1.2 = viewId
  (found[n % found.length]?).map Prod.snd

def recordIncomingView (envelope : SyncEnvelope) (s : SessionState) : SessionState :=
  if envelope.kind = .needView ∨ envelope.kind = .haveView then
    s.modifyView envelope.sessionId envelope.viewId fun view =>
      { view with
        clientRevision := envelope.clientRevision
        clientSignature := envelope.clientSignature }
  else s

def storeRenderedView (sessionId viewId : UInt64) (rendered : RenderedSyncView)
    (s : SessionState) : SessionState :=
  s.modifyView sessionId viewId fun _ =>
    { clientRevision := rendered.revision
      clientSignature := rendered.signature
      serverRevision := rendered.revision
      serverSignature := rendered.signature
      lastTree := some rendered.tree }

def sendSyncEnvelope (envelope : SyncEnvelope) (s : SessionState) : SessionState :=
  if envelope.kind = .viewSnapshot then
    { s with
      messages := s.messages.filter (fun queued =>
        queued.sessionId ≠ envelope.sessionId ∨ queued.viewId ≠ envelope.viewId) ++ [envelope] }
  else { s with messages := s.messages ++ [envelope] }

def hasPendingViewSync (sessionId viewId : UInt64) (s : SessionState) : Bool :=
  s.messages.any fun envelope => envelope.sessionId = sessionId ∧ envelope.viewId = viewId

end SessionState

def saturatingSucc (n : UInt64) : UInt64 := if n = 0xffffffffffffffff then n else n + 1

def nextRevision (serverRevision clientRevision : UInt64) : UInt64 :=
  max (saturatingSucc (max serverRevision clientRevision)) 1

def nextViewRevision (active : ActiveViewState) : UInt64 :=
  nextRevision active.serverRevision active.clientRevision

/-! ## Handlers -/

/-- **What a handler still has to do.**  The endpoint's session may be gone: a read then sees
`none`, and a write or a send is dropped. -/
inductive Handler where
  | done
  /-- a locked read -/
  | read (next : Option SessionState → Handler)
  /-- a locked write -/
  | update (f : SessionState → SessionState) (next : Handler)
  | send (envelope : SyncEnvelope) (next : Handler)
  /-- the program renders the view's tree -/
  | render (next : DomNode → Handler)
  /-- a tree was given a revision and a signature -/
  | sign (viewId revision : UInt64) (tree : DomNode) (next : Handler)
  /-- an awaited call whose answer decides only how to go on -/
  | ask (next : Bool → Handler)
  /-- a choice of the hash order -/
  | pick (next : ℕ → Handler)

namespace Handler

def signed (viewId revision : UInt64) (tree : DomNode) (next : RenderedSyncView → Handler) :
    Handler :=
  .sign viewId revision tree (next (renderedSyncView viewId revision tree))

def endpointSession (next : Handler) : Handler :=
  .read fun s => if s.isSome then next else .done

def storeRenderedSyncView (sessionId viewId : UInt64) (rendered : RenderedSyncView)
    (next : Handler) : Handler :=
  .update (·.storeRenderedView sessionId viewId rendered) next

def snapshotEnvelope (sessionId viewId clientRevision clientSignature : UInt64)
    (rendered : RenderedSyncView) : SyncEnvelope where
  kind := .viewSnapshot
  sessionId := sessionId
  viewId := viewId
  clientRevision := clientRevision
  clientSignature := clientSignature
  serverRevision := rendered.revision
  serverSignature := rendered.signature
  payload := rendered.payload

def renderSyncView (viewId : UInt64) (next : RenderedSyncView → Handler) : Handler :=
  .pick fun n => .read fun s =>
    let revision := ((s.bind (SessionState.findView n viewId)).map nextViewRevision).getD 1
    endpointSession <| .render fun tree => signed viewId revision tree next

/-- Register the view's subscriptions, or not; the view is there afterwards. -/
def viewSubscriptions (sessionId viewId : UInt64) (next : Handler) : Handler :=
  .read fun s =>
    if s.isSome then
      .update (·.modifyView sessionId viewId id) (.ask fun ok => if ok then next else .done)
    else next

def sendSnapshot (sessionId viewId clientRevision clientSignature : UInt64)
    (rendered : RenderedSyncView) : Handler :=
  .send (snapshotEnvelope sessionId viewId clientRevision clientSignature rendered)
    (storeRenderedSyncView sessionId viewId rendered .done)

def sendRecoverySnapshotFromRendered (event : DomEventPayload) (rendered : RenderedSyncView) :
    Handler :=
  sendSnapshot event.sessionId event.viewId event.revision event.signature rendered

def sendRecoverySnapshot (event : DomEventPayload) : Handler :=
  renderSyncView event.viewId (sendRecoverySnapshotFromRendered event)

/-- Render the view and send what changed since the state the refresh read. -/
def refreshActiveSyncViewFor (sessionId viewId : UInt64) (active : ActiveViewState)
    (forceAck : Bool) (next : Handler) : Handler :=
  endpointSession <| .render fun tree =>
    let patches := active.lastTree.map fun lastTree => diffDomNodes lastTree tree
    if patches = some [] then
      if forceAck then
        .send
          { kind := .viewDelta
            sessionId := sessionId
            viewId := viewId
            clientRevision := active.serverRevision
            clientSignature := active.serverSignature
            serverRevision := active.serverRevision
            serverSignature := active.serverSignature
            payload := .domPatch viewId active.serverRevision [] } next
      else next
    else
      signed viewId (nextViewRevision active) tree fun rendered =>
        .read fun s =>
          let snapshot := snapshotEnvelope sessionId viewId active.clientRevision
            active.clientSignature rendered
          let envelope :=
            if s.any (·.hasPendingViewSync sessionId viewId) then snapshot
            else
              match patches with
              | some patches =>
                { kind := .viewDelta
                  sessionId := sessionId
                  viewId := viewId
                  clientRevision := active.serverRevision
                  clientSignature := active.serverSignature
                  serverRevision := rendered.revision
                  serverSignature := rendered.signature
                  payload := .domPatch viewId rendered.revision patches }
              | none => snapshot
          .send envelope (storeRenderedSyncView sessionId viewId rendered next)

def refreshActiveSyncView (sessionId viewId : UInt64) (forceAck : Bool) (next : Handler) :
    Handler :=
  .read fun s =>
    match s.bind (SessionState.view? sessionId viewId) with
    | some active => refreshActiveSyncViewFor sessionId viewId active forceAck next
    | none => next

/-- The event's invocation; when it is over at once and asks for no other update, the view is
refreshed. -/
def syncEvent (event : DomEventPayload) : Handler :=
  endpointSession <| .ask fun refreshImmediately =>
    if event.refresh ∧ refreshImmediately then
      refreshActiveSyncView event.sessionId event.viewId true .done
    else .done

def routeDomEvent (event : DomEventPayload) : Handler :=
  .read fun s =>
    match s.bind (SessionState.view? event.sessionId event.viewId) with
    | none => sendRecoverySnapshot event
    | some active =>
      if event.refresh ∧
          (active.serverRevision ≠ event.revision ∨ active.serverSignature ≠ event.signature) then
        renderSyncView event.viewId fun rendered =>
          if event.revision > rendered.revision then sendRecoverySnapshotFromRendered event rendered
          else
            -- the new tree is stored, and not sent
            storeRenderedSyncView event.sessionId event.viewId rendered (syncEvent event)
      else syncEvent event

def haveViewSnapshot (envelope : SyncEnvelope) (tree : DomNode) : Handler :=
  .read fun s =>
    let revision :=
      ((s.bind (SessionState.view? envelope.sessionId envelope.viewId)).map nextViewRevision).getD 1
    signed envelope.viewId revision tree (sendSnapshot envelope.sessionId envelope.viewId
      envelope.clientRevision envelope.clientSignature)

/-- The client says what it has: when that is what the program renders now, it becomes what the host
has too. -/
def haveView (envelope : SyncEnvelope) : Handler :=
  .read fun s =>
    if (s.bind (SessionState.view? envelope.sessionId envelope.viewId)).any fun active =>
        active.serverRevision = envelope.clientRevision ∧
          active.serverSignature = envelope.clientSignature ∧ active.lastTree.isSome then .done
    else
      endpointSession <| .render fun tree =>
        if envelope.clientRevision > 0 then
          signed envelope.viewId envelope.clientRevision tree fun rendered =>
            if rendered.signature = envelope.clientSignature then
              storeRenderedSyncView envelope.sessionId envelope.viewId rendered .done
            else haveViewSnapshot envelope tree
        else haveViewSnapshot envelope tree

def needView (envelope : SyncEnvelope) : Handler :=
  renderSyncView envelope.viewId (sendSnapshot envelope.sessionId envelope.viewId
    envelope.clientRevision envelope.clientSignature)

def routeSyncEnvelope (envelope : SyncEnvelope) : Handler :=
  let route :=
    match envelope.payload with
    | .malformed => .done
    | .domEvent event => routeDomEvent event
    | _ =>
      match envelope.kind with
      | .haveView => haveView envelope
      | .needView => needView envelope
      -- an input for the program
      | .viewSnapshot | .viewDelta => .done
  .update (·.recordIncomingView envelope) <|
    match envelope.kind with
    | .needView | .haveView => viewSubscriptions envelope.sessionId envelope.viewId route
    | .viewSnapshot | .viewDelta => route

/-- The refreshes a driver event asks for: session, view, whether to acknowledge without a change,
and whether the subscriptions are made anew. -/
def processDriverEvent : List (UInt64 × UInt64 × Bool × Bool) → Handler
  | [] => .done
  | (sessionId, viewId, forceAck, resynchronize) :: refreshes =>
    let refresh := refreshActiveSyncView sessionId viewId forceAck (processDriverEvent refreshes)
    if resynchronize then viewSubscriptions sessionId viewId refresh else refresh

end Handler

/-! ## The whole system -/

/-- What the client shows of a view. -/
structure ClientView where
  revision : UInt64
  signature : UInt64
  tree : Option DomNode

def ClientView.empty : ClientView := ⟨0, 0, none⟩

/-- **The client that the protocol asks for**, without a page: a snapshot is always taken and replaces
the tree, and a delta only on the pair it starts from; a delta that does not apply takes the pair away.
`sync-client.js` also passes over a snapshot older than what it shows, and lays a new one over the
mounted nodes (Sync/Reconcile). -/
def ClientView.handleEnvelope (envelope : SyncEnvelope) (c : ClientView) : ClientView :=
  match envelope.kind, envelope.payload with
  | .viewSnapshot, .snapshot _ _ root =>
    ⟨envelope.serverRevision, envelope.serverSignature, some root⟩
  | .viewDelta, .domPatch _ _ patches =>
    if c.revision = envelope.clientRevision ∧ c.signature = envelope.clientSignature then
      match c.tree.bind (DomNode.applyPatches patches) with
      | some tree => ⟨envelope.serverRevision, envelope.serverSignature, some tree⟩
      | none => ⟨0, 0, c.tree⟩
    else c
  | _, _ => c

/-- `rendered` lists every tree that was given a signature, with its view and revision. -/
structure SyncSystem where
  session : Option SessionState
  handlers : List Handler
  wire : List SyncEnvelope
  client : UInt64 × UInt64 → ClientView
  rendered : List (UInt64 × UInt64 × DomNode)

/-- What a waiting handler is told. -/
inductive Answer where
  | go
  | tree (tree : DomNode)
  | bool (answer : Bool)
  | order (n : ℕ)
  | fail

inductive SyncAction where
  | receive (envelope : SyncEnvelope)
  | domEvent (event : DomEventPayload)
  | driverEvent (refreshes : List (UInt64 × UInt64 × Bool × Bool))
  | resume (i : ℕ) (answer : Answer)
  /-- the writer takes messages from the queue -/
  | drain (n : ℕ)
  /-- a message on the wire reaches the client, once more or for the first time -/
  | deliver (i : ℕ)
  | close
  /-- the client comes back on a new endpoint; the handlers of the old one have no session -/
  | connect

namespace SyncSystem

def init : SyncSystem := ⟨some .empty, [], [], fun _ => .empty, []⟩

/-- One handler goes on by one region or one answer. -/
def advance (sys : SyncSystem) (i : ℕ) : Handler → Answer → SyncSystem
  | .read next, .go => { sys with handlers := sys.handlers.set i (next sys.session) }
  | .update f next, .go =>
    { sys with session := sys.session.map f, handlers := sys.handlers.set i next }
  | .send envelope next, .go =>
    { sys with
      session := sys.session.map (·.sendSyncEnvelope envelope)
      handlers := sys.handlers.set i next }
  | .sign viewId revision tree next, .go =>
    { sys with
      handlers := sys.handlers.set i next
      rendered := (viewId, revision, tree) :: sys.rendered }
  | .render next, .tree tree => { sys with handlers := sys.handlers.set i (next tree) }
  | .ask next, .bool answer => { sys with handlers := sys.handlers.set i (next answer) }
  | .pick next, .order n => { sys with handlers := sys.handlers.set i (next n) }
  | .render _, .fail | .ask _, .fail => { sys with handlers := sys.handlers.set i .done }
  | _, _ => sys

def step (sys : SyncSystem) : SyncAction → SyncSystem
  | .receive envelope =>
    { sys with handlers := sys.handlers ++ [Handler.routeSyncEnvelope envelope] }
  | .domEvent event => { sys with handlers := sys.handlers ++ [Handler.routeDomEvent event] }
  | .driverEvent refreshes =>
    { sys with handlers := sys.handlers ++ [Handler.processDriverEvent refreshes] }
  | .resume i answer =>
    match sys.handlers[i]? with
    | some handler => sys.advance i handler answer
    | none => sys
  | .drain n =>
    match sys.session with
    | some s =>
      { sys with
        session := some { s with messages := s.messages.drop n }
        wire := sys.wire ++ s.messages.take n }
    | none => sys
  | .deliver i =>
    match sys.wire[i]? with
    | some envelope =>
      { sys with
        client := fun key =>
          if key = (envelope.sessionId, envelope.viewId) then
            (sys.client key).handleEnvelope envelope
          else sys.client key }
    | none => sys
  | .close => { sys with session := none }
  | .connect =>
    match sys.session with
    | some _ => sys
    | none => { sys with session := some .empty, handlers := [] }

def run (sys : SyncSystem) (actions : List SyncAction) : SyncSystem := actions.foldl step sys

end SyncSystem

end Mica
