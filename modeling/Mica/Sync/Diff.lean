import Mathlib.Data.List.Induction
import Mica.Sync.Reconcile

/-!
# Sync/Diff — the patches of a diff turn the one tree into the other

`Replaces path a b patches` says that on every tree with `a` at `path` the patches succeed and leave
`b` there.  Such steps chain (`Replaces.append`) and an edit of a child is an edit of its parent
(`Replaces.child`), so the diff of two nodes follows from the diffs of their children:
`applyPatches_diff`.
-/

open List Option

namespace Mica

open SortedList

namespace DomNode

/-! ## Paths -/

/-- A node that is put at a path is found there. -/
theorem at?_setAt : ∀ {path : List ℕ} {root a b : DomNode}, root.at? path = some a →
    (root.setAt path b).at? path = some b
  | [], _, _, _, _ => rfl
  | i :: path, .element tag attrs children, _, _, h => by
    obtain ⟨child, hchild, hat⟩ := bind_eq_some_iff.mp h
    simp only [setAt, at?, getElem?_modify_eq, hchild]
    exact at?_setAt hat
  | _ :: _, .text _, _, _, h => by simp [at?] at h

/-- The last node that is put at a path stays. -/
theorem setAt_setAt : ∀ (path : List ℕ) (root a b : DomNode),
    (root.setAt path a).setAt path b = root.setAt path b
  | [], _, _, _ => rfl
  | i :: path, .element tag attrs children, a, b => by
    simp only [setAt, modify_modify_eq, element.injEq, true_and]
    exact congrArg (children.modify i) (funext fun child => setAt_setAt path child a b)
  | _ :: _, .text _, _, _ => rfl

/-- Putting back what is there changes nothing. -/
theorem setAt_self : ∀ {path : List ℕ} {root a : DomNode}, root.at? path = some a →
    root.setAt path a = root
  | [], _, _, h => (some.inj h).symm
  | i :: path, .element tag attrs children, _, h => by
    obtain ⟨child, hchild, hat⟩ := bind_eq_some_iff.mp h
    simp only [setAt, element.injEq, true_and]
    refine ext_getElem? fun j => ?_
    by_cases hj : i = j
    · subst hj
      rw [getElem?_modify_eq, hchild, Option.map_eq_map, Option.map_some, setAt_self hat]
    · rw [getElem?_modify_ne _ _ hj]
  | _ :: _, .text _, _, h => by simp [at?] at h

/-- A path is followed part by part. -/
theorem at?_append : ∀ (path rest : List ℕ) (root : DomNode),
    root.at? (path ++ rest) = (root.at? path).bind (at? rest)
  | [], _, _ => rfl
  | i :: path, rest, .element tag attrs children => by
    simp only [cons_append, at?, bind_assoc]
    exact congrArg (children[i]?.bind ·) (funext fun child => at?_append path rest child)
  | _ :: _, _, .text _ => rfl

/-- A node below a path is put into the node at the path. -/
theorem setAt_append : ∀ {path : List ℕ} (rest : List ℕ) {root a : DomNode} (b : DomNode),
    root.at? path = some a → root.setAt (path ++ rest) b = root.setAt path (a.setAt rest b)
  | [], _, _, _, _, h => by rw [some.inj h]; rfl
  | i :: path, rest, .element tag attrs children, _, b, h => by
    obtain ⟨child, hchild, hat⟩ := bind_eq_some_iff.mp h
    simp only [cons_append, setAt, element.injEq, true_and]
    refine ext_getElem? fun j => ?_
    by_cases hj : i = j
    · subst hj
      rw [getElem?_modify_eq, getElem?_modify_eq, hchild, Option.map_eq_map,
        Option.map_some, Option.map_eq_map, Option.map_some, setAt_append rest b hat]
    · rw [getElem?_modify_ne _ _ hj, getElem?_modify_ne _ _ hj]
  | _ :: _, _, .text _, _, _, h => by simp [at?] at h

/-! ## Steps -/

end DomNode

/-- Patches are applied one run after the other. -/
theorem Client.applyPatches_append (ps qs : List DomPatch) (clients : ℕ → Client) (root : DomNode) :
    Client.applyPatches clients (ps ++ qs) root = (Client.applyPatches clients ps root).bind
      (Client.applyPatches (fun n => clients (n + ps.length)) qs) := by
  induction ps generalizing clients root with
  | nil => rfl
  | cons p ps ih =>
    simp only [cons_append, applyPatches, bind_assoc, ih, length_cons]
    rfl

namespace DomNode

/-- **The patches put `b` in the place of `a`**, whatever the rest of the tree, at clients of a
kind. -/
def Replaces (P : Client → Prop) (path : List ℕ) (a b : DomNode) (patches : List DomPatch) : Prop :=
  ∀ clients : ℕ → Client, (∀ n, P (clients n)) → ∀ root, root.at? path = some a →
    Client.applyPatches clients patches root = some (root.setAt path b)

mutual

/-- The clients draw a node as it stands, and set and remove the attributes of its elements. -/
def Handled (P : Client → Prop) : DomNode → Prop
  | .text s => ∀ c, P c → c.renderNode (.text s) = some (.text s)
  | .element tag attrs children =>
    (∀ c, P c → c.renderNode (.element tag attrs children) = some (.element tag attrs children) ∧
      ∀ name ∈ attrs.keys, ∀ attrs' children',
        (∀ value, c.setAttr tag attrs' children' name value =
          some (.element tag (attrs'.insert name value) children')) ∧
        c.removeAttr tag attrs' children' name = some (.element tag (attrs'.erase name) children')) ∧
      HandledAll P children

def HandledAll (P : Client → Prop) : List DomNode → Prop
  | [] => True
  | node :: nodes => Handled P node ∧ HandledAll P nodes

end

section

variable {P : Client → Prop} {path : List ℕ} {a b c : DomNode} {ps qs : List DomPatch} {tag : String}
  {attrs : SortedMap String String} {children : List DomNode}

/-- All nodes are handled if each is. -/
theorem handledAll_iff : ∀ {nodes : List DomNode},
    HandledAll P nodes ↔ ∀ node ∈ nodes, Handled P node
  | [] => by simp [HandledAll]
  | node :: nodes => by rw [HandledAll, handledAll_iff, forall_mem_cons]

/-- A node that is handled is drawn as it is. -/
theorem Handled.renderNode (h : Handled P a) {client : Client} (hclient : P client) :
    client.renderNode a = some a := by
  cases a with
  | text s => exact h client hclient
  | element tag attrs children => exact (h.1 client hclient).1

theorem Replaces.refl : Replaces P path a a [] := fun _ _ root h => by
  rw [setAt_self h]
  rfl

/-- Two replacements follow one another. -/
theorem Replaces.append (hab : Replaces P path a b ps) (hbc : Replaces P path b c qs) :
    Replaces P path a c (ps ++ qs) := by
  intro clients hclients root h
  rw [Client.applyPatches_append, hab clients hclients root h, bind_some,
    hbc _ (fun n => hclients _) _ (at?_setAt h), setAt_setAt]

/-- A patch of a child is a patch of its parent. -/
theorem Replaces.child {i : ℕ} (hi : children[i]? = some a) (h : Replaces P (path ++ [i]) a b ps) :
    Replaces P path (.element tag attrs children) (.element tag attrs (children.set i b)) ps := by
  intro clients hclients root hroot
  have hat : root.at? (path ++ [i]) = some a := by
    rw [at?_append, hroot]
    simp [at?, hi]
  have hset : children.modify i (fun child => child.setAt [] b) = children.set i b := by
    rw [set_eq_modify]
    rfl
  rw [h clients hclients root hat, setAt_append [i] b hroot, setAt, hset]

/-- One patch that puts `b` in the place of `a`. -/
theorem replaces_one {p : DomPatch} (h : ∀ client, P client → ∀ root : DomNode,
    root.at? path = some a → client.applyPatch root p = some (root.setAt path b)) :
    Replaces P path a b [p] := by
  intro clients hclients root hroot
  rw [Client.applyPatches, h _ (hclients 0) root hroot]
  rfl

/-- A node is replaced by one that the clients draw. -/
theorem replaces_replace (hb : Handled P b) : Replaces P path a b [.replace path b] :=
  replaces_one fun client hclient root h => by
    rw [Client.applyPatch, h, hb.renderNode hclient]
    rfl

theorem replaces_setText {s t : String} :
    Replaces P path (.text s) (.text t) [.setText path t] :=
  replaces_one fun client _ root h => by rw [Client.applyPatch, h]

/-- An attribute of a handled element is set. -/
theorem replaces_setAttr {attrs' : SortedMap String String} {children' : List DomNode}
    (h : Handled P (.element tag attrs' children')) {name : String} (hname : name ∈ attrs'.keys)
    {value : String} : Replaces P path (.element tag attrs children)
      (.element tag (attrs.insert name value) children) [.setAttr path name value] :=
  replaces_one fun client hclient root hroot => by
    have hset := ((h.1 client hclient).2 name hname attrs children).1 value
    rw [Client.applyPatch, editElement, hroot]
    simp only [hset, Option.map_some]

/-- An attribute of a handled element is removed. -/
theorem replaces_removeAttr {attrs' : SortedMap String String} {children' : List DomNode}
    (h : Handled P (.element tag attrs' children')) {name : String} (hname : name ∈ attrs'.keys) :
    Replaces P path (.element tag attrs children) (.element tag (attrs.erase name) children)
      [.removeAttr path name] :=
  replaces_one fun client hclient root hroot => by
    have hremove := ((h.1 client hclient).2 name hname attrs children).2
    rw [Client.applyPatch, editElement, hroot]
    simp only [hremove, Option.map_some]

/-- A handled child is appended. -/
theorem replaces_appendChild (ha : Handled P a) : Replaces P path (.element tag attrs children)
    (.element tag attrs (children ++ [a])) [.appendChild path a] :=
  replaces_one fun client hclient root h => by
    rw [Client.applyPatch, editElement, h, ha.renderNode hclient]
    rfl

/-- A handled child is put between others. -/
theorem replaces_insertChild (ha : Handled P a) {before after : List DomNode} :
    Replaces P path (.element tag attrs (before ++ after)) (.element tag attrs (before ++ a :: after))
      [.insertChild path before.length a] :=
  replaces_one fun client hclient root h => by
    simp [Client.applyPatch, editElement, h, ha.renderNode hclient]

/-- A child is removed from between others. -/
theorem replaces_removeChild {before after : List DomNode} :
    Replaces P path (.element tag attrs (before ++ a :: after))
      (.element tag attrs (before ++ after)) [.removeChild (path ++ [before.length])] :=
  replaces_one fun client _ root h => by
    rw [Client.applyPatch, getLast?_concat, dropLast_concat]
    simp [editElement, h, eraseIdx_append_of_length_le]

end

/-! ## Attributes -/

variable {P : Client → Prop}

section

variable (step : String × String → SortedMap String String → SortedMap String String)

/-- A loop over entries, each of whose patches changes the attributes by one step. -/
theorem replaces_flatMap {path : List ℕ} {tag : String} {children : List DomNode}
    (patch : String × String → List DomPatch) :
    ∀ (entries : List (String × String)) (attrs : SortedMap String String),
    (∀ e ∈ entries, ∀ attrs, Replaces P path (.element tag attrs children)
      (.element tag (step e attrs) children) (patch e)) →
    Replaces P path (.element tag attrs children)
      (.element tag (entries.foldl (fun attrs e => step e attrs) attrs) children)
      (entries.flatMap patch)
  | [], _, _ => Replaces.refl
  | e :: entries, attrs, h => by
    rw [flatMap_cons]
    exact (h e mem_cons_self attrs).append
      (replaces_flatMap patch entries (step e attrs) fun e he => h e (mem_cons_of_mem _ he))

/-- When each step makes its own key's value what the goal says, given that it was what it was at
the start, the loop makes the value of every key it visits what the goal says. -/
theorem get?_foldl_step (start goal : String → Option String) :
    ∀ (entries : List (String × String)) (attrs : SortedMap String String),
    (∀ e ∈ entries, ∀ attrs : SortedMap String String, attrs.get? e.1 = start e.1 →
      ∀ k, (step e attrs).get? k = if k = e.1 then goal k else attrs.get? k) →
    (entries.map Prod.fst).Nodup → (∀ e ∈ entries, attrs.get? e.1 = start e.1) →
    ∀ k, (entries.foldl (fun attrs e => step e attrs) attrs).get? k =
      if k ∈ entries.map Prod.fst then goal k else attrs.get? k
  | [], _, _, _, _, _ => by simp
  | e :: entries, attrs, hstep, hnodup, hstart, k => by
    obtain ⟨hfresh, hnodup⟩ := nodup_cons.mp hnodup
    have hhead := hstep e mem_cons_self attrs (hstart e mem_cons_self)
    have hrest : ∀ e' ∈ entries, (step e attrs).get? e'.1 = start e'.1 := by
      intro e' he'
      have hne : e'.1 ≠ e.1 := fun heq => hfresh (heq ▸ mem_map_of_mem he')
      rw [hhead, if_neg hne, hstart e' (mem_cons_of_mem _ he')]
    rw [foldl_cons, get?_foldl_step start goal entries (step e attrs)
      (fun e' he' => hstep e' (mem_cons_of_mem _ he')) hnodup hrest k, hhead]
    by_cases hk : k ∈ entries.map Prod.fst
    · simp only [map_cons, mem_cons, hk, or_true, if_true]
    · simp only [map_cons, mem_cons, hk, or_false, if_false]

end

theorem nodup_keys (attrs : SortedMap String String) : (attrs.list.map Prod.fst).Nodup :=
  attrs.pairwise_keys.imp ne_of_lt

/-- What the patches of a diff do to one attribute of the old element. -/
def keepStep (after : SortedMap String String) (e : String × String)
    (attrs : SortedMap String String) : SortedMap String String :=
  match after.get? e.1 with
  | some value => if value = e.2 then attrs else attrs.insert e.1 value
  | none => attrs.erase e.1

/-- What they do for one attribute of the new element. -/
def addStep (before : SortedMap String String) (e : String × String)
    (attrs : SortedMap String String) : SortedMap String String :=
  if (before.get? e.1).isSome then attrs else attrs.insert e.1 e.2

/-- The first loop leaves the attributes that stay, with their new values. -/
theorem get?_keepLoop (before after : SortedMap String String) (k : String) :
    (before.list.foldl (fun attrs e => keepStep after e attrs) before).get? k =
      if k ∈ before.keys then after.get? k else none := by
  have hentry : ∀ e ∈ before.list, before.get? e.1 = some e.2 := fun e he =>
    SortedMap.get?_eq_some.mpr he
  rw [get?_foldl_step (keepStep after) before.get? after.get? before.list before ?_
    (nodup_keys before) fun _ _ => rfl]
  · by_cases hk : k ∈ before.keys
    · rw [if_pos hk, if_pos (show k ∈ before.list.map Prod.fst from hk)]
    · rw [if_neg hk, if_neg (show k ∉ before.list.map Prod.fst from hk)]
      exact not_isSome_iff_eq_none.mp fun h => hk (SortedMap.mem_keys.mpr h)
  · intro e he attrs hattrs k
    rw [hentry e he] at hattrs
    unfold keepStep
    cases hafter : after.get? e.1 with
    | none =>
      simp only [SortedMap.get?_erase]
      split
      · next h => rw [h, hafter]
      · rfl
    | some value =>
      dsimp only
      split
      · next h =>
        by_cases hk : k = e.1
        · rw [if_pos hk, hk, hattrs, hafter, h]
        · rw [if_neg hk]
      · rw [SortedMap.get?_insert]
        by_cases hk : k = e.1
        · rw [if_pos hk, if_pos hk, hk, hafter]
        · rw [if_neg hk, if_neg hk]

/-- The second adds those that are new. -/
theorem addLoop_eq (before after mid : SortedMap String String)
    (hmid : ∀ k, mid.get? k = if k ∈ before.keys then after.get? k else none) :
    after.list.foldl (fun attrs e => addStep before e attrs) mid = after := by
  refine SortedMap.ext_get? fun k => ?_
  rw [get?_foldl_step (addStep before) mid.get? after.get? after.list mid ?_ (nodup_keys after)
    fun _ _ => rfl]
  · by_cases hk : k ∈ after.list.map Prod.fst
    · rw [if_pos hk]
    · have hnone : after.get? k = none :=
        not_isSome_iff_eq_none.mp fun h => hk (SortedMap.mem_keys.mpr h)
      rw [if_neg hk, hmid, hnone, ite_self]
  · intro e he attrs hattrs k
    have hafter : after.get? e.1 = some e.2 := SortedMap.get?_eq_some.mpr he
    unfold addStep
    split
    · next h =>
      by_cases hk : k = e.1
      · rw [if_pos hk, hk, hattrs, hmid, if_pos (SortedMap.mem_keys.mpr h)]
      · rw [if_neg hk]
    · rw [SortedMap.get?_insert]
      by_cases hk : k = e.1
      · rw [if_pos hk, if_pos hk, hk, hafter]
      · rw [if_neg hk, if_neg hk]

/-- The patches of the attributes bring the old ones to the new. -/
theorem replaces_diffDomAttrs (path : List ℕ) (tag : String) (before after : SortedMap String String)
    (children : List DomNode) {children' after' : List DomNode}
    (hbefore : Handled P (.element tag before children'))
    (hafter : Handled P (.element tag after after')) :
    Replaces P path (.element tag before children) (.element tag after children)
      (diffDomAttrs before after path) := by
  have hkeep : Replaces P path (.element tag before children) (.element tag _ children) _ :=
    replaces_flatMap (keepStep after)
      (fun e => match after.get? e.1 with
        | some value => if value = e.2 then [] else [.setAttr path e.1 value]
        | none => [.removeAttr path e.1]) before.list before (by
        intro e he attrs
        unfold keepStep
        cases hwant : after.get? e.1 with
        | none => exact replaces_removeAttr hbefore (mem_map_of_mem he)
        | some value =>
          dsimp only
          split
          · exact Replaces.refl
          · exact replaces_setAttr hafter (SortedMap.mem_keys.mpr (by rw [hwant]; rfl)))
  have hadd : Replaces P path (.element tag _ children) (.element tag _ children) _ :=
    replaces_flatMap (addStep before)
      (fun e => if (before.get? e.1).isSome then [] else [.setAttr path e.1 e.2]) after.list
      (before.list.foldl (fun attrs e => keepStep after e attrs) before) (by
        intro e he attrs
        unfold addStep
        split
        · exact Replaces.refl
        · exact replaces_setAttr hafter (mem_map_of_mem he))
  rw [addLoop_eq before after _ (get?_keepLoop before after)] at hadd
  exact hkeep.append hadd

/-! ## Children by position -/

section

variable {path : List ℕ} {tag : String} {attrs : SortedMap String String}

/-- The children that are new stand at the end. -/
theorem replaces_appendChildren : ∀ (extra children : List DomNode),
    (∀ node ∈ extra, Handled P node) → Replaces P path (.element tag attrs children)
    (.element tag attrs (children ++ extra))
      (extra.map (.appendChild path))
  | [], children, _ => by
    rw [append_nil]
    exact Replaces.refl
  | node :: extra, children, h => by
    obtain ⟨hnode, hextra⟩ := forall_mem_cons.mp h
    have hrest := replaces_appendChildren extra (children ++ [node]) hextra
    rw [append_assoc, singleton_append] at hrest
    exact (replaces_appendChild hnode).append hrest

theorem replaces_removeChildren (children extra : List DomNode) :
    Replaces P path (.element tag attrs (children ++ extra)) (.element tag attrs children)
      ((List.range' children.length extra.length).reverse.map fun i =>
        .removeChild (path ++ [i])) := by
  induction extra using List.reverseRecOn with
  | nil =>
    rw [append_nil]
    exact Replaces.refl
  | append_singleton extra node ih =>
    have hlast : Replaces P path (.element tag attrs (children ++ (extra ++ [node])))
        (.element tag attrs (children ++ extra))
        [.removeChild (path ++ [children.length + extra.length])] := by
      rw [← append_assoc, ← length_append]
      have hremove : Replaces P path (.element tag attrs (children ++ extra ++ node :: []))
          (.element tag attrs (children ++ extra ++ [])) _ := replaces_removeChild
      rwa [append_nil] at hremove
    rw [length_append, length_singleton, range'_concat]
    simp only [one_mul, reverse_append, reverse_singleton, map_append,
      map_singleton]
    exact hlast.append ih

/-- Where one list of children is longer, its end is added or removed. -/
theorem replaces_diffUnshared (before after : List DomNode) (hafter : ∀ node ∈ after, Handled P node) :
    Replaces P path
      (.element tag attrs (after.take before.length ++ before.drop after.length))
      (.element tag attrs after) (diffUnshared before after path) := by
  rcases Nat.le_total before.length after.length with h | h
  · have hnone : before.length - after.length = 0 := Nat.sub_eq_zero_of_le h
    have happ : Replaces P path (.element tag attrs _) (.element tag attrs _) _ :=
      replaces_appendChildren (after.drop before.length) (after.take before.length)
        fun node hnode => hafter node (mem_of_mem_drop hnode)
    rw [take_append_drop] at happ
    rw [diffUnshared, hnone, drop_of_length_le h, append_nil]
    simpa using happ
  have hrem : Replaces P path (.element tag attrs _) (.element tag attrs _) _ :=
    replaces_removeChildren after (before.drop after.length)
  rw [length_drop] at hrem
  rw [diffUnshared, drop_of_length_le h, take_of_length_le h]
  simpa using hrem

end

/-! ## Children by key -/

/-- The keys are those of all children, and no two are the same. -/
theorem childKeysFrom_spec : ∀ {children : List DomNode} {seen keys : List String},
    childKeysFrom seen children = some keys →
    keys.length = children.length ∧ keys.Nodup ∧ ∀ k ∈ keys, k ∉ seen
  | [], _, _, h => by
    obtain rfl := some.inj h
    simp
  | child :: children, seen, keys, h => by
    rw [childKeysFrom] at h
    rcases hkey : domNodeKey child with _ | key
    · simp [hkey] at h
    rw [hkey] at h
    dsimp only at h
    split at h
    · cases h
    rename_i hseen
    obtain ⟨rest, hrest, rfl⟩ := map_eq_some_iff.mp h
    obtain ⟨hlen, hnodup, hfresh⟩ := childKeysFrom_spec hrest
    refine ⟨by simp [hlen], nodup_cons.mpr ⟨?_, hnodup⟩, ?_⟩
    · exact fun hmem => hfresh key hmem mem_cons_self
    · intro k hk
      rcases mem_cons.mp hk with rfl | hk
      · exact hseen
      · exact fun hmem => hfresh k hk (mem_cons_of_mem _ hmem)

section

variable {path : List ℕ} {tag : String} {attrs : SortedMap String String}

/-- The element whose children these keyed nodes are. -/
def keyed (tag : String) (attrs : SortedMap String String) (current : List (String × DomNode)) :
    DomNode := .element tag attrs (current.map Prod.snd)

/-- The children whose key is gone are removed, and the others stay in their order. -/
theorem dropAbsent_spec (path : List ℕ) (tag : String) (attrs : SortedMap String String)
    (afterKeys : List String) :
    ∀ (front back : List (String × DomNode)),
    (dropAbsent afterKeys path front.length (front ++ back)).2 =
        front.filter (fun e => e.1 ∈ afterKeys) ++ back ∧
      Replaces P path (keyed tag attrs (front ++ back))
        (keyed tag attrs (front.filter (fun e => e.1 ∈ afterKeys) ++ back))
        (dropAbsent afterKeys path front.length (front ++ back)).1 := by
  intro front
  induction front using List.reverseRecOn with
  | nil => exact fun back => ⟨rfl, Replaces.refl⟩
  | append_singleton front e ih =>
    intro back
    have hget : (front ++ [e] ++ back)[front.length]? = some e := by simp
    rw [length_append, length_singleton, dropAbsent, hget]
    obtain ⟨key, node⟩ := e
    by_cases hkey : key ∈ afterKeys
    · simp only [hkey, if_true, filter_append, filter_singleton, decide_true]
      simpa using ih ((key, node) :: back)
    have herase : (front ++ [(key, node)] ++ back).eraseIdx front.length = front ++ back := by
      simp [eraseIdx_append_of_length_le]
    have hremove : Replaces P path (keyed tag attrs (front ++ [(key, node)] ++ back))
        (keyed tag attrs (front ++ back)) [.removeChild (path ++ [front.length])] := by
      have hone : Replaces P path
          (.element tag attrs (front.map Prod.snd ++ node :: back.map Prod.snd))
          (.element tag attrs (front.map Prod.snd ++ back.map Prod.snd)) _ :=
        replaces_removeChild
      simpa [keyed] using hone
    obtain ⟨hkept, hrep⟩ := ih back
    simp only [hkey, if_false, herase, filter_append, filter_singleton, decide_false,
      cond_false, append_nil]
    exact ⟨hkept, hremove.append hrep⟩

theorem split_of_findIdx? {α : Type} {p : α → Bool} {l : List α} {j : ℕ}
    (h : l.findIdx? p = some j) :
    ∃ front x back, l = front ++ x :: back ∧ front.length = j ∧ p x = true := by
  obtain ⟨hj, hp, -⟩ := findIdx?_eq_some_iff_getElem.mp h
  refine ⟨l.take j, l[j], l.drop (j + 1), ?_, ?_, hp⟩
  · rw [← drop_eq_getElem_cons hj, take_append_drop]
  · rw [length_take, Nat.min_eq_left hj.le]

/-- The last patch of a placing, once a later child of the same key is gone. -/
theorem replaces_insert (key : String) {child : DomNode} (hchild : Handled P child)
    (done rest : List (String × DomNode)) :
    Replaces P path (keyed tag attrs (done ++ rest)) (keyed tag attrs (done ++ (key, child) :: rest))
      [if done.length = (done ++ rest).length then .appendChild path child
        else .insertChild path done.length child] := by
  split
  · next h =>
    have hrest : rest = [] := by simpa using h
    simpa [hrest, keyed] using replaces_appendChild hchild
  have hone : Replaces P path
      (.element tag attrs (done.map Prod.snd ++ rest.map Prod.snd))
      (.element tag attrs (done.map Prod.snd ++ child :: rest.map Prod.snd)) _ :=
    replaces_insertChild hchild
  simpa [keyed] using hone

theorem insertIdx_length {α : Type} (x : α) : ∀ done rest : List α,
    (done ++ rest).insertIdx done.length x = done ++ x :: rest
  | [], _ => rfl
  | d :: done, rest => by
    rw [cons_append, length_cons, insertIdx_succ_cons, insertIdx_length x done rest,
      cons_append]

/-- Placing a child whose key is not next: it stands there once, and nowhere later. -/
theorem placeKeyed_spec (path : List ℕ) (tag : String) (attrs : SortedMap String String)
    (key : String) {child : DomNode} (hchild : Handled P child) (done rest : List (String × DomNode))
    (hnext : rest.head?.map Prod.fst ≠ some key) (hnodup : (rest.map Prod.fst).Nodup) :
    ∃ rest' : List (String × DomNode), rest'.Sublist rest ∧
      key ∉ rest'.map Prod.fst ∧
      (placeKeyed path done.length key child (done ++ rest)).2 = done ++ (key, child) :: rest' ∧
      Replaces P path (keyed tag attrs (done ++ rest))
        (keyed tag attrs (done ++ (key, child) :: rest'))
        (placeKeyed path done.length key child (done ++ rest)).1 := by
  have hdrop : (done ++ rest).drop (done.length + 1) = rest.drop 1 := by
    rw [← drop_drop, drop_left]
  unfold placeKeyed
  rw [hdrop]
  cases hfind : (rest.drop 1).findIdx? fun e => decide (e.1 = key) with
  | none =>
    refine ⟨rest, List.Sublist.refl _, ?_, insertIdx_length _ _ _,
      replaces_insert key hchild done rest⟩
    intro hmem
    obtain ⟨e, he, hkey⟩ := mem_map.mp hmem
    cases rest with
    | nil => cases he
    | cons h tail =>
      rcases mem_cons.mp he with rfl | he
      · exact hnext (by simp [hkey])
      · have := findIdx?_eq_none_iff.mp hfind e (by simpa using he)
        simp [hkey] at this
  | some j =>
    obtain ⟨front, x, back, hsplit, rfl, hx⟩ := split_of_findIdx? hfind
    cases rest with
    | nil => simp at hsplit
    | cons h tail =>
      obtain rfl : tail = front ++ x :: back := by simpa using hsplit
      have hkey : x.1 = key := by simpa using hx
      have herase : (done ++ h :: (front ++ x :: back)).eraseIdx (front.length + (done.length + 1)) =
          done ++ h :: (front ++ back) := by
        have hlen : front.length + (done.length + 1) = (done ++ h :: front).length := by
          simp only [length_append, length_cons]
          omega
        rw [hlen, show done ++ h :: (front ++ x :: back) = done ++ h :: front ++ x :: back by simp,
          eraseIdx_append_of_length_le le_rfl]
        simp
      have hremove : Replaces P path (keyed tag attrs (done ++ h :: (front ++ x :: back)))
          (keyed tag attrs (done ++ h :: (front ++ back)))
          [.removeChild (path ++ [front.length + (done.length + 1)])] := by
        have hlen : front.length + (done.length + 1) =
            ((done ++ h :: front).map Prod.snd).length := by
          simp only [length_map, length_append, length_cons]
          omega
        have hone : Replaces P path
            (.element tag attrs ((done ++ h :: front).map Prod.snd ++ x.2 :: back.map Prod.snd))
            (.element tag attrs ((done ++ h :: front).map Prod.snd ++ back.map Prod.snd)) _ :=
          replaces_removeChild
        rw [hlen]
        simpa [keyed] using hone
      refine ⟨h :: (front ++ back), ?_, ?_, ?_, ?_⟩
      · simp
      · have hperm : (h :: (front ++ x :: back)).map Prod.fst |>.Perm
            (x.1 :: (h :: (front ++ back)).map Prod.fst) := by
          have hmid : (h :: front ++ x :: back).Perm (x :: (h :: front ++ back)) := perm_middle
          exact hmid.map Prod.fst
        exact hkey ▸ (nodup_cons.mp (hperm.nodup_iff.mp hnodup)).1
      · simp only [Option.map_some, elim_some, herase]
        exact insertIdx_length _ _ _
      · simp only [Option.map_some, elim_some, herase]
        exact hremove.append (replaces_insert key hchild done (h :: (front ++ back)))

end

/-! ## The whole diff -/

mutual

/-- **The patches of a diff put the new node in the place of the old one.** -/
theorem replaces_diffDomNode : ∀ (after before : DomNode) (path : List ℕ), Handled P after →
    Handled P before → Replaces P path before after (diffDomNode before path after)
  | .text s, before, path, hafter, _ => by
    rw [diffDomNode.eq_def]
    dsimp only
    split
    · next h =>
      rw [h]
      exact Replaces.refl
    · cases before with
      | text t => exact replaces_setText
      | element tag attrs children => exact replaces_replace hafter
  | .element tag attrs children, before, path, hafter, hbefore => by
    rw [diffDomNode.eq_def]
    dsimp only
    split
    · next h =>
      rw [h]
      exact Replaces.refl
    cases before with
    | text t => exact replaces_replace hafter
    | element tag' attrs' children' =>
      have hchildren := handledAll_iff.mp hafter.2
      have hchildren' := handledAll_iff.mp hbefore.2
      dsimp only
      split
      · next htag =>
        subst htag
        refine (replaces_diffDomAttrs path tag' attrs' attrs children' hbefore hafter).append ?_
        split
        · next keys' keys hkeys' hkeys =>
          obtain ⟨hlen', hnodup', -⟩ := childKeysFrom_spec hkeys'
          obtain ⟨hlen, -, -⟩ := childKeysFrom_spec hkeys
          have hpairs : (keys'.zip children').length = children'.length := by
            rw [length_zip, hlen', Nat.min_self]
          have hnodes : (keys'.zip children').map Prod.snd = children' :=
            map_snd_zip hlen'.ge
          have hfst : (keys'.zip children').map Prod.fst = keys' := map_fst_zip hlen'.le
          obtain ⟨hkept, hdrop⟩ := dropAbsent_spec path tag' attrs keys (keys'.zip children') []
          rw [append_nil, append_nil, hpairs] at hkept hdrop
          have hkeyed := replaces_diffKeyed children keys []
            ((keys'.zip children').filter fun e => e.1 ∈ keys) path tag' attrs hlen
            ((hfst ▸ hnodup').sublist (filter_sublist.map _))
            (fun e he => by simpa using (mem_filter.mp he).2) hchildren fun e he =>
              hchildren' e.2 (hnodes ▸ mem_map_of_mem (mem_of_mem_filter he))
          have hall := hdrop.append hkeyed
          rw [keyed, hnodes] at hall
          rwa [hkept]
        · have hshared := replaces_diffShared children children'
            [] path tag' attrs hchildren hchildren'
          exact hshared.append (replaces_diffUnshared children' children hchildren)
      · exact replaces_replace hafter

/-- The keyed children that are done stand in front, as the new list has them. -/
theorem replaces_diffKeyed : ∀ (children : List DomNode) (keys : List String)
    (done rest : List (String × DomNode)) (path : List ℕ) (tag : String)
    (attrs : SortedMap String String), keys.length = children.length →
    (rest.map Prod.fst).Nodup → (∀ e ∈ rest, e.1 ∈ keys) → (∀ node ∈ children, Handled P node) →
    (∀ e ∈ rest, Handled P e.2) → Replaces P path (keyed tag attrs (done ++ rest))
      (.element tag attrs (done.map Prod.snd ++ children))
      (diffKeyedDomChildren path done.length (done ++ rest) keys children)
  | [], keys, done, rest, path, tag, attrs, hlen, _, hsub, _, _ => by
    obtain rfl := length_eq_zero_iff.mp hlen
    have hrest : rest = [] := eq_nil_iff_forall_not_mem.mpr fun e he => by
      simpa using hsub e he
    rw [diffKeyedDomChildren, hrest, append_nil, append_nil]
    exact Replaces.refl
  | child :: children, [], done, rest, path, tag, attrs, hlen, _, _, _, _ => by simp at hlen
  | child :: children, key :: keys, done, rest, path, tag, attrs, hlen, hnodup, hsub,
    hafter, hrest => by
    obtain ⟨hchild, hafter⟩ := forall_mem_cons.mp hafter
    have hlen' : keys.length = children.length := by simpa using hlen
    have hget : (done ++ rest)[done.length]? = rest.head? := by
      rw [getElem?_append_right le_rfl, Nat.sub_self, head?_eq_getElem?]
    -- the rest of the loop, once the child stands behind those already placed
    have hgo : ∀ rest' : List (String × DomNode), rest'.Sublist rest → key ∉ rest'.map Prod.fst →
        Replaces P path (keyed tag attrs (done ++ (key, child) :: rest'))
          (.element tag attrs (done.map Prod.snd ++ child :: children))
          (diffKeyedDomChildren path (done.length + 1) (done ++ (key, child) :: rest') keys
            children) := by
      intro rest' hsublist hfresh
      have hothers := replaces_diffKeyed children keys (done ++ [(key, child)]) rest' path tag attrs
        hlen' (hnodup.sublist (hsublist.map _)) (by
          intro e he
          refine (mem_cons.mp (hsub e (hsublist.subset he))).resolve_left ?_
          exact fun heq => hfresh (heq ▸ mem_map_of_mem he))
        hafter fun e he => hrest e (hsublist.subset he)
      simpa using hothers
    rw [diffKeyedDomChildren.eq_def]
    dsimp only
    rw [hget]
    split
    · next hhead =>
      obtain ⟨⟨key', node⟩, hnext, rfl⟩ := map_eq_some_iff.mp hhead
      obtain ⟨tail, rfl⟩ := head?_eq_some_iff.mp hnext
      obtain ⟨hfresh, -⟩ := nodup_cons.mp hnodup
      have hset : (done ++ (key', node) :: tail).set done.length (key', child) =
          done ++ (key', child) :: tail := by simp
      have hhere : Replaces P path (keyed tag attrs (done ++ (key', node) :: tail))
          (keyed tag attrs (done ++ (key', child) :: tail))
          (diffDomNode node (path ++ [done.length]) child) := by
        have hat : (done.map Prod.snd ++ node :: tail.map Prod.snd)[done.length]? = some node := by
          simp
        simpa [keyed] using Replaces.child hat
          (replaces_diffDomNode child node (path ++ [done.length]) hchild (hrest _ mem_cons_self))
      rw [hset]
      exact hhere.append (hgo tail (sublist_cons_self _ _) hfresh)
    · next hhead =>
      obtain ⟨rest', hsublist, hfresh, hplaced, hrep⟩ := placeKeyed_spec path tag attrs key hchild
        done rest hhead hnodup
      rw [hplaced]
      exact hrep.append (hgo rest' hsublist hfresh)

/-- The children that both lists have are diffed in their places. -/
theorem replaces_diffShared : ∀ (children before done : List DomNode) (path : List ℕ) (tag : String)
    (attrs : SortedMap String String), (∀ node ∈ children, Handled P node) →
    (∀ node ∈ before, Handled P node) → Replaces P path (.element tag attrs (done ++ before))
      (.element tag attrs (done ++ (children.take before.length ++ before.drop children.length)))
      (diffSharedDomChildren path done.length before children)
  | [], before, done, path, tag, attrs, _, _ => by
    rw [diffSharedDomChildren, take_nil, length_nil, drop_zero, nil_append]
    exact Replaces.refl
  | child :: children, [], done, path, tag, attrs, _, _ => by
    rw [diffSharedDomChildren]
    exact Replaces.refl
  | child :: children, old :: before, done, path, tag, attrs, hafter, hbefore => by
    obtain ⟨hchild, hafter⟩ := forall_mem_cons.mp hafter
    obtain ⟨hold, hbefore⟩ := forall_mem_cons.mp hbefore
    have hhere : Replaces P path (.element tag attrs (done ++ old :: before))
        (.element tag attrs (done ++ child :: before))
        (diffDomNode old (path ++ [done.length]) child) := by
      have hat : (done ++ old :: before)[done.length]? = some old := by simp
      simpa using Replaces.child hat (replaces_diffDomNode child old
        (path ++ [done.length]) hchild hold)
    have hrest := replaces_diffShared children before (done ++ [child]) path tag attrs hafter
      hbefore
    rw [diffSharedDomChildren]
    refine hhere.append ?_
    simpa using hrest

end

mutual

/-- The plain client handles every node. -/
theorem handled_plain : ∀ node : DomNode, Handled (· = .plain) node
  | .text _ => fun _ hc => hc ▸ rfl
  | .element _ _ children => ⟨fun _ hc => hc ▸ ⟨rfl, fun _ _ _ _ => ⟨fun _ => rfl, rfl⟩⟩,
    handledAll_plain children⟩

theorem handledAll_plain : ∀ nodes : List DomNode, HandledAll (· = .plain) nodes
  | [] => trivial
  | node :: nodes => ⟨handled_plain node, handledAll_plain nodes⟩

end

/-- **What the patches of a diff mean is `after`.** -/
theorem applyPatches_diff (before after : DomNode) :
    applyPatches (diffDomNodes before after) before = some after :=
  replaces_diffDomNode after before [] (handled_plain _) (handled_plain _) _ (fun _ => rfl) before rfl

/-! ## In the browser -/

/-- The writes of a `value` leave the elements of a tag as they are. -/
def Keeps (page : Page) (tag : String) : Prop :=
  ∀ path attr text children, page path tag attr text children = some (attr, children)

mutual

/-- Wherever an element has a `value`, the writes of it leave the elements of its tag as they are. -/
def KeepsValues (page : Page) : DomNode → Prop
  | .text _ => True
  | .element tag attrs children =>
    ("value" ∈ attrs.keys → Keeps page tag) ∧ KeepAllValues page children

def KeepAllValues (page : Page) : List DomNode → Prop
  | [] => True
  | node :: nodes => KeepsValues page node ∧ KeepAllValues page nodes

end

section

variable {page : Page}

mutual

theorem draws_of_keepsValues : ∀ {node : DomNode} {path : List ℕ}, KeepsValues page node →
    Draws page path node
  | .text _, _, _ => trivial
  | .element tag attrs children, path, h => by
    refine ⟨?_, drawAll_of_keepAllValues h.2⟩
    cases hvalue : attrs.get? "value" with
    | none => rfl
    | some text => exact h.1 (SortedMap.mem_keys.mpr (by rw [hvalue]; rfl)) path _ text []

theorem drawAll_of_keepAllValues : ∀ {nodes : List DomNode} {path : List ℕ} {i : ℕ},
    KeepAllValues page nodes → DrawAll page path i nodes
  | [], _, _, _ => trivial
  | _ :: _, _, _, h => ⟨draws_of_keepsValues h.1, drawAll_of_keepAllValues h.2⟩

end

/-- Where the writes of a `value` keep an element, they are as if there were none. -/
theorem writeValue_keeps {tag name text : String} (h : name = "value" → Keeps page tag)
    {path : List ℕ} (e : Parts) : writeValue (page path tag) name text e = some e := by
  rw [writeValue]
  split
  · next hname => rw [h hname, Option.map_some, withValue_self]
  · rfl

end

mutual

/-- The browser handles a valid node whose values it keeps. -/
theorem handled_client {P : Page → Prop} : ∀ {node : DomNode} {svg : Bool}, isValid svg node = true →
    (∀ page, P page → KeepsValues page node) → Handled (fun c => ∃ page, P page ∧ c = page.client) node
  | .text _, _, _, _ => by
    rintro _ ⟨page, -, rfl⟩
    rfl
  | .element tag attrs children, svg, h, hkeeps => by
    obtain ⟨-, -, hattrs, hchildren⟩ := isValid_element h
    refine ⟨?_, handledAll_client hchildren fun page hpage => (hkeeps page hpage).2⟩
    rintro _ ⟨page, hpage, rfl⟩
    have hvalid : isValid false (.element tag attrs children) = true := by
      cases svg with
      | false => exact h
      | true => exact isValid_of_svg h
    refine ⟨(renderNode_iff hvalid).mpr (draws_of_keepsValues (hkeeps page hpage)), ?_⟩
    intro name hname attrs' children'
    have hwrite : ∀ text e, writeValue (page [] tag) name text e = some e := fun _ =>
      writeValue_keeps fun heq => (hkeeps page hpage).1 (heq ▸ hname)
    refine ⟨fun value => ?_, ?_⟩
    · change (applySingleAttribute _ _ _ _).map _ = _
      rw [applySingleAttribute, if_pos (hattrs name hname), hwrite]
      rfl
    · change (removeSingleAttribute _ _ _).map _ = _
      rw [removeSingleAttribute, if_pos (hattrs name hname), hwrite]
      rfl

theorem handledAll_client {P : Page → Prop} : ∀ {nodes : List DomNode} {svg : Bool},
    areValid svg nodes = true → (∀ page, P page → KeepAllValues page nodes) →
    HandledAll (fun c => ∃ page, P page ∧ c = page.client) nodes
  | [], _, _, _ => trivial
  | node :: nodes, svg, h, hkeeps => by
    obtain ⟨hnode, hnodes⟩ := Bool.and_eq_true_iff.mp h
    exact ⟨handled_client hnode fun page hpage => (hkeeps page hpage).1,
      handledAll_client hnodes fun page hpage => (hkeeps page hpage).2⟩

end

end DomNode

end Mica
