import Mathlib.Data.String.Basic
import Mica.Lib.Json
import Mica.Lib.SortedList

/-!
# Sync/Dom — the trees of a synced view, their patches and their payloads

A view is a `DomNode` tree.  The host sends it whole, as the JSON of `snapshotPayloadJson`, or as
the `DomPatch`es that `diffDomNodes` finds between the last tree and the new one; a patch names its
place by child indices from the root, each path read against the tree as changed so far.  What becomes
of a node or an attribute of a patch is up to the `Client`: `Client.plain` takes it as it is, and so
gives the meaning of a patch (`DomNode.applyPatches`), and Sync/Reconcile has the one of the browser.
The **signature** of a tree is a hash of its revision and its payload; `snapshotPayloadJson_inj` says
the payload loses nothing of the tree.
-/

namespace Mica

open SortedList

deriving instance DecidableEq for SortedList.SortedMap

/-! ## Trees -/

inductive DomNode where
  | text (text : String)
  | element (tag : String) (attrs : SortedMap String String) (children : List DomNode)

namespace DomNode

mutual

def decEq : (a b : DomNode) → Decidable (a = b)
  | .text s, .text t =>
    if h : s = t then isTrue (congrArg _ h) else isFalse fun heq => h (DomNode.text.inj heq)
  | .element t a c, .element t' a' c' =>
    if ht : t = t' then
      if ha : a = a' then
        match decEqList c c' with
        | isTrue hc => isTrue (by rw [ht, ha, hc])
        | isFalse hc => isFalse fun heq => hc (DomNode.element.inj heq).2.2
      else isFalse fun heq => ha (DomNode.element.inj heq).2.1
    else isFalse fun heq => ht (DomNode.element.inj heq).1
  | .text _, .element _ _ _ => isFalse DomNode.noConfusion
  | .element _ _ _, .text _ => isFalse DomNode.noConfusion

def decEqList : (l m : List DomNode) → Decidable (l = m)
  | [], [] => isTrue rfl
  | a :: l, b :: m =>
    match decEq a b, decEqList l m with
    | isTrue h, isTrue h' => isTrue (by rw [h, h'])
    | isFalse h, _ => isFalse fun heq => h (List.cons.inj heq).1
    | _, isFalse h => isFalse fun heq => h (List.cons.inj heq).2
  | [], _ :: _ => isFalse (List.cons_ne_nil _ _).symm
  | _ :: _, [] => isFalse (List.cons_ne_nil _ _)

end

instance : DecidableEq DomNode := decEq

/-! ## Payloads and signatures -/

def jsonAttrs (attrs : SortedMap String String) : Json :=
  .object (attrs.list.map fun e => (e.1, .string e.2))

mutual

/-- The JSON of a tree; a JSON object writes its members in key order. -/
def toJsonValue : DomNode → Json
  | .text s => .object [("text", .string s)]
  | .element tag attrs children =>
    .object [("attrs", jsonAttrs attrs), ("children", .array (toJsonValues children)),
      ("tag", .string tag)]

def toJsonValues : List DomNode → List Json
  | [] => []
  | child :: children => toJsonValue child :: toJsonValues children

end

theorem jsonAttrs_inj {a b : SortedMap String String} (h : jsonAttrs a = jsonAttrs b) : a = b := by
  have hmap := Json.object.inj h
  refine SortedMap.ext (List.map_injective_iff.mpr ?_ hmap)
  rintro ⟨k, v⟩ ⟨k', v'⟩ heq
  simpa using heq

mutual

theorem toJsonValue_inj : ∀ {a b : DomNode}, a.toJsonValue = b.toJsonValue → a = b
  | .text s, .text t, h => by simpa [toJsonValue] using h
  | .element tag attrs children, .element tag' attrs' children', h => by
    simp only [toJsonValue, Json.object.injEq, List.cons.injEq, Prod.mk.injEq, Json.array.injEq,
      Json.string.injEq, true_and, and_true] at h
    obtain ⟨hattrs, hchildren, rfl⟩ := h
    rw [jsonAttrs_inj hattrs, toJsonValues_inj hchildren]
  | .text _, .element _ _ _, h => by simp [toJsonValue] at h
  | .element _ _ _, .text _, h => by simp [toJsonValue] at h

theorem toJsonValues_inj : ∀ {l m : List DomNode}, toJsonValues l = toJsonValues m → l = m
  | [], [], _ => rfl
  | a :: l, b :: m, h => by
    rw [toJsonValue_inj (List.cons.inj h).1, toJsonValues_inj (List.cons.inj h).2]
  | [], _ :: _, h => absurd h.symm (List.cons_ne_nil _ _)
  | _ :: _, [], h => absurd h (List.cons_ne_nil _ _)

end

end DomNode

def snapshotPayloadJson (view revision : UInt64) (root : DomNode) : List UInt8 :=
  (Json.object [("revision", .number revision.toNat), ("root", root.toJsonValue),
    ("view", .number view.toNat)]).toVec

/-- **A payload determines its tree.** -/
theorem snapshotPayloadJson_inj {view revision : UInt64} {a b : DomNode}
    (h : snapshotPayloadJson view revision a = snapshotPayloadJson view revision b) : a = b := by
  have hjson := Json.toVec_inj h
  simp only [Json.object.injEq, List.cons.injEq, Prod.mk.injEq, true_and, and_true] at hjson
  exact DomNode.toJsonValue_inj hjson

def fnvOffset : UInt64 := 0xcbf29ce484222325
def fnvPrime : UInt64 := 0x00000100000001b3
def signatureMask : UInt64 := 0x007fffffffffffff

/-- The eight bytes of a revision, lowest first. -/
def revisionLeBytes (revision : UInt64) : List UInt8 :=
  (List.range 8).map fun i => (revision >>> (8 * i).toUInt64).toUInt8

def syncPayloadSignature (revision : UInt64) (payload : List UInt8) : UInt64 :=
  (revisionLeBytes revision ++ payload).foldl
    (fun hash byte => (hash ^^^ byte.toUInt64) * fnvPrime) fnvOffset &&& signatureMask

/-! ## Patches -/

inductive DomPatch where
  | replace (path : List ℕ) (node : DomNode)
  | setText (path : List ℕ) (text : String)
  | setAttr (path : List ℕ) (name value : String)
  | removeAttr (path : List ℕ) (name : String)
  | appendChild (path : List ℕ) (node : DomNode)
  | insertChild (path : List ℕ) (index : ℕ) (node : DomNode)
  | removeChild (path : List ℕ)
  deriving DecidableEq

namespace DomNode

/-- The node at a path of child indices. -/
def at? : List ℕ → DomNode → Option DomNode
  | [], node => some node
  | i :: path, .element _ _ children => children[i]?.bind (at? path)
  | _ :: _, .text _ => none

/-- The tree with another node at a path. -/
def setAt : List ℕ → DomNode → DomNode → DomNode
  | [], _, node => node
  | i :: path, .element tag attrs children, node =>
    .element tag attrs (children.modify i fun child => setAt path child node)
  | _ :: _, .text s, _ => .text s

/-- Change the element at a path; an error where there is none. -/
def editElement (path : List ℕ) (root : DomNode)
    (edit : String → SortedMap String String → List DomNode → Option DomNode) : Option DomNode :=
  match root.at? path with
  | some (.element tag attrs children) => (edit tag attrs children).map fun node =>
    root.setAt path node
  | _ => none

end DomNode

/-- What a client makes of the node of a patch, and of an element one of whose attributes is set or
removed; nothing where it throws. -/
structure Client where
  renderNode : DomNode → Option DomNode
  setAttr : String → SortedMap String String → List DomNode → String → String → Option DomNode
  removeAttr : String → SortedMap String String → List DomNode → String → Option DomNode

namespace Client

/-- `applyPatch`, at a client. -/
def applyPatch (client : Client) (root : DomNode) : DomPatch → Option DomNode
  | .replace path node =>
    (root.at? path).bind fun _ => (client.renderNode node).map fun node => root.setAt path node
  | .setText path s =>
    match root.at? path with
    | some (.text _) => some (root.setAt path (.text s))
    | _ => none
  | .setAttr path name value =>
    root.editElement path fun tag attrs children => client.setAttr tag attrs children name value
  | .removeAttr path name =>
    root.editElement path fun tag attrs children => client.removeAttr tag attrs children name
  | .appendChild path node =>
    root.editElement path fun tag attrs children =>
      (client.renderNode node).map fun node => .element tag attrs (children ++ [node])
  | .insertChild path index node =>
    -- past the last child the browser appends
    root.editElement path fun tag attrs children => (client.renderNode node).map fun node =>
      .element tag attrs (children.take index ++ node :: children.drop index)
  | .removeChild path =>
    match path.getLast? with
    -- without its root the mount is empty, which is no tree
    | none => none
    | some index =>
      root.editElement path.dropLast fun tag attrs children =>
        if index < children.length then some (.element tag attrs (children.eraseIdx index))
        else none

/-- The patches in order; a client is asked once for each. -/
def applyPatches (clients : ℕ → Client) : List DomPatch → DomNode → Option DomNode
  | [], root => some root
  | patch :: patches, root =>
    ((clients 0).applyPatch root patch).bind (applyPatches (fun n => clients (n + 1)) patches)

/-- The client that does as it is told. -/
def plain : Client where
  renderNode := some
  setAttr tag attrs children name value := some (.element tag (attrs.insert name value) children)
  removeAttr tag attrs children name := some (.element tag (attrs.erase name) children)

end Client

/-- What the patches mean. -/
def DomNode.applyPatches (patches : List DomPatch) (root : DomNode) : Option DomNode :=
  Client.applyPatches (fun _ => .plain) patches root

/-! ## Diffs -/

open DomPatch

def domNodeKey : DomNode → Option String
  | .text _ => none
  | .element _ attrs _ => (attrs.get? "data-sync-key").or (attrs.get? "id")

/-- The keys of the children, when each has one and they differ. -/
def childKeysFrom (seen : List String) : List DomNode → Option (List String)
  | [] => some []
  | child :: children =>
    match domNodeKey child with
    | none => none
    | some key =>
      if key ∈ seen then none else (childKeysFrom (key :: seen) children).map (key :: ·)

def childKeys (children : List DomNode) : Option (List String) := childKeysFrom [] children

def diffDomAttrs (before after : SortedMap String String) (path : List ℕ) : List DomPatch :=
  before.list.flatMap (fun e =>
    match after.get? e.1 with
    | some value => if value = e.2 then [] else [setAttr path e.1 value]
    | none => [removeAttr path e.1]) ++
  after.list.flatMap (fun e =>
    if (before.get? e.1).isSome then [] else [setAttr path e.1 e.2])

/-- The children whose key does not come back, removed from the last to the first of the first `n`;
the children that stay, with their keys. -/
def dropAbsent (afterKeys : List String) (path : List ℕ) :
    ℕ → List (String × DomNode) → List DomPatch × List (String × DomNode)
  | 0, current => ([], current)
  | n + 1, current =>
    match current[n]? with
    | some (key, _) =>
      if key ∈ afterKeys then dropAbsent afterKeys path n current
      else
        let rest := dropAbsent afterKeys path n (current.eraseIdx n)
        (removeChild (path ++ [n]) :: rest.1, rest.2)
    | none => dropAbsent afterKeys path n current

/-- Put a child at an index: where its key stands further on, that child is removed first. -/
def placeKeyed (path : List ℕ) (index : ℕ) (key : String) (child : DomNode)
    (current : List (String × DomNode)) : List DomPatch × List (String × DomNode) :=
  let found := ((current.drop (index + 1)).findIdx? fun e => e.1 = key).map (· + (index + 1))
  let current' := found.elim current current.eraseIdx
  (found.elim [] (fun i => [removeChild (path ++ [i])]) ++
    [if index = current'.length then appendChild path child else insertChild path index child],
    current'.insertIdx index (key, child))

/-- The unkeyed children past the shared ones: appended, or removed from the last on. -/
def diffUnshared (before after : List DomNode) (path : List ℕ) : List DomPatch :=
  (after.drop before.length).map (appendChild path) ++
    (List.range' after.length (before.length - after.length)).reverse.map
      fun i => removeChild (path ++ [i])

mutual

def diffDomNode (before : DomNode) (path : List ℕ) : DomNode → List DomPatch
  | .text s =>
    if before = .text s then []
    else
      match before with
      | .text _ => [setText path s]
      | .element _ _ _ => [replace path (.text s)]
  | .element tag attrs children =>
    if before = .element tag attrs children then []
    else
      match before with
      | .text _ => [replace path (.element tag attrs children)]
      | .element tag' attrs' children' =>
        if tag' = tag then
          diffDomAttrs attrs' attrs path ++
            -- `diff_dom_children`: by key where both sides have keys, else by position
            match childKeys children', childKeys children with
            | some keys', some keys =>
              let kept := dropAbsent keys path children'.length (keys'.zip children')
              kept.1 ++ diffKeyedDomChildren path 0 kept.2 keys children
            | _, _ => diffSharedDomChildren path 0 children' children ++
                diffUnshared children' children path
        else [replace path (.element tag attrs children)]

def diffKeyedDomChildren (path : List ℕ) (index : ℕ) (current : List (String × DomNode))
    (keys : List String) : List DomNode → List DomPatch
  | [] => []
  | child :: children =>
    match keys with
    | [] => []
    | key :: keys =>
      if (current[index]?).map Prod.fst = some key then
        diffDomNode ((current[index]?).elim child Prod.snd) (path ++ [index]) child ++
          diffKeyedDomChildren path (index + 1) (current.set index (key, child)) keys children
      else
        let placed := placeKeyed path index key child current
        placed.1 ++ diffKeyedDomChildren path (index + 1) placed.2 keys children

def diffSharedDomChildren (path : List ℕ) (index : ℕ) (before : List DomNode) :
    List DomNode → List DomPatch
  | [] => []
  | child :: children =>
    match before with
    | [] => []
    | old :: before =>
      diffDomNode old (path ++ [index]) child ++
        diffSharedDomChildren path (index + 1) before children

end

def diffDomNodes (before after : DomNode) : List DomPatch := diffDomNode before [] after

end Mica
