import Mica.Sync.Dom

/-!
# Sync/Reconcile — what a snapshot leaves of the tree that was mounted

A snapshot is laid over the children of the mount: where a mounted element has the snapshot's tag it
is reused, its attributes and children brought to the new ones; elsewhere the node is rendered anew.
`applyAttributes` removes what the snapshot lacks only among the names of `supportedAttributes`,
while `isSupportedAttribute` also lets in every `data-*` and `aria-*` name.  And with the attribute
`value` the property of that name is written, which a browser reflects into the attribute of some
elements, and into the text of others.  So the mount ends as the snapshot exactly where no reused
element has a `data-*` or `aria-*` name that the snapshot leaves out, and each write of a `value`
leaves the element as the snapshot has it (`Reaches`, `reconcileNode_iff`).

A mounted node is its tag, attributes, text and children; the namespace of an element is only the
parameter of `renderNode` that its check of the tags reads, and a name stands for the one that the
browser has for it (it lowers the case of `viewBox` outside an `svg`).
-/

open List

namespace Mica

open SortedList

/-! ## Names -/

def supportedTags : List String :=
  ["a", "abbr", "address", "area", "article", "aside", "audio", "b", "bdi", "bdo", "blockquote",
    "br", "button", "canvas", "caption", "cite", "code", "col", "colgroup", "data", "datalist",
    "dd", "del", "details", "dfn", "dialog", "div", "dl", "dt", "em", "fieldset", "figcaption",
    "figure", "footer", "form", "h1", "h2", "h3", "h4", "h5", "h6", "header", "hr", "i", "img",
    "input", "ins", "kbd", "label", "legend", "li", "main", "map", "mark", "menu", "meter", "nav",
    "ol", "optgroup", "option", "output", "p", "picture", "pre", "progress", "q", "rp", "rt",
    "ruby", "s", "samp", "section", "select", "small", "source", "span", "strong", "sub", "summary",
    "sup", "circle", "line", "path", "polygon", "polyline", "rect", "svg", "table", "tbody", "td",
    "template", "textarea", "tfoot", "th", "thead", "time", "tr", "track", "u", "ul", "var",
    "video", "wbr"]

def supportedAttributes : List String :=
  ["accept", "accept-charset", "action", "alt", "aria-busy", "aria-checked", "aria-controls",
    "aria-current", "aria-describedby", "aria-disabled", "aria-expanded", "aria-hidden",
    "aria-label", "aria-labelledby", "aria-live", "aria-pressed", "aria-selected", "autocomplete",
    "autofocus", "checked", "class", "cols", "colspan", "data-command", "data-entity",
    "data-sync-action", "data-sync-coalesce", "data-sync-debounce", "data-sync-disable-with",
    "data-sync-event", "data-sync-fire-and-forget", "data-sync-follow", "data-sync-key",
    "data-sync-poll-ms", "data-sync-preserve-focus", "data-sync-reset", "data-sync-submit-key",
    "data-sync-throttle", "data-sync-on-viewport-top", "data-sync-stable-top",
    "data-sync-viewport-threshold", "datetime", "disabled", "download", "draggable", "for",
    "height", "hidden", "href", "id", "lang", "list", "loading", "max", "maxlength", "method",
    "min", "minlength", "multiple", "name", "open", "pattern", "placeholder", "readonly", "rel",
    "required", "role", "rows", "rowspan", "selected", "size", "span", "src", "step", "tabindex",
    "target", "title", "type", "value", "width", "wrap", "cx", "cy", "d", "fill", "points", "r",
    "rx", "ry", "stroke", "stroke-linecap", "stroke-linejoin", "stroke-width", "viewBox", "x", "x1",
    "x2", "y", "y1", "y2"]

def svgTags : List String := ["circle", "line", "path", "polygon", "polyline", "rect", "svg"]

/-- A name that goes on after `start` with lower-case letters, digits and dashes. -/
def hasCustomAttributePrefix (name start : String) : Bool :=
  start.toList.isPrefixOf name.toList && name.toList.length != start.toList.length &&
    (name.toList.drop start.toList.length).all fun c =>
      ('a' ≤ c && c ≤ 'z') || ('0' ≤ c && c ≤ '9') || c == '-'

def isSupportedAttribute (name : String) : Bool :=
  name ∈ supportedAttributes || hasCustomAttributePrefix name "aria-" ||
    hasCustomAttributePrefix name "data-"

/-! ## Attributes -/

/-- **What a write of an element's `value` property leaves** of its `value` attribute and its
children, which are given with the text to write; nothing where the write throws.  An element without
the property, or the input that is being typed in, is left as it is. -/
abbrev Setter := Option String → String → List DomNode → Option (Option String × List DomNode)

/-- The setters of a page, by the place of an element in the node that is handled and by its tag. -/
abbrev Page := List ℕ → String → Setter

/-- The attributes and the children of an element. -/
abbrev Parts := SortedMap String String × List DomNode

/-- The attributes with another `value`, or without one. -/
def withValue (attrs : SortedMap String String) : Option String → SortedMap String String
  | some text => attrs.insert "value" text
  | none => attrs.erase "value"

/-- After a change of `value`, the property is written. -/
def writeValue (write : Setter) (name text : String) (e : Parts) : Option Parts :=
  if name = "value" then
    (write (e.1.get? "value") text e.2).map fun left => (withValue e.1 left.1, left.2)
  else some e

/-- Set one attribute; an error where the name is not supported. -/
def applySingleAttribute (write : Setter) (e : Parts) (name value : String) : Option Parts :=
  if isSupportedAttribute name then writeValue write name value (e.1.insert name value, e.2) else none

def removeSingleAttribute (write : Setter) (e : Parts) (name : String) : Option Parts :=
  if isSupportedAttribute name then writeValue write name "" (e.1.erase name, e.2) else none

/-- The second loop of `applyAttributes`: of the fixed names, those that are not wanted go. -/
def removeUnwanted (write : Setter) (attrs : SortedMap String String) (names : List String)
    (e : Parts) : Option Parts :=
  names.foldlM (fun e name => if (attrs.get? name).isNone && (e.1.get? name).isSome then
    removeSingleAttribute write e name else some e) e

/-- Bring the attributes of an element to the wanted ones. -/
def applyAttributes (write : Setter) (e : Parts) (attrs : SortedMap String String) : Option Parts :=
  (attrs.list.foldlM (fun e a => applySingleAttribute write e a.1 a.2) e).bind
    (removeUnwanted write attrs supportedAttributes)

section Attributes

variable {write : Setter} {current attrs : SortedMap String String} {children : List DomNode}

theorem get?_withValue (v : Option String) (k : String) :
    (withValue current v).get? k = if k = "value" then v else current.get? k := by
  cases v with
  | none => rw [withValue, SortedMap.get?_erase]
  | some text => rw [withValue, SortedMap.get?_insert]

theorem withValue_self : withValue current (current.get? "value") = current := by
  refine SortedMap.ext_get? fun k => ?_
  rw [get?_withValue]
  split
  · next h => rw [h]
  · rfl

/-- Where every name has its value but `value`, one `value` settles the rest. -/
theorem withValue_congr {current' : SortedMap String String} {v : Option String}
    (h : ∀ k ≠ "value", current.get? k = current'.get? k) :
    withValue current v = withValue current' v := by
  refine SortedMap.ext_get? fun k => ?_
  rw [get?_withValue, get?_withValue]
  split
  · rfl
  · next hk => exact h k hk

theorem get?_foldl_insert (k : String) : ∀ (entries : List (String × String))
    (current : SortedMap String String), (entries.map Prod.fst).Nodup →
    (entries.foldl (fun c e => c.insert e.1 e.2) current).get? k =
      ((entries.find? fun e => e.1 = k).map Prod.snd).or (current.get? k)
  | [], _, _ => rfl
  | e :: entries, current, h => by
    obtain ⟨hhead, htail⟩ := nodup_cons.mp h
    rw [foldl_cons, get?_foldl_insert k entries _ htail, SortedMap.get?_insert]
    by_cases hk : e.1 = k
    · have hnone : entries.find? (fun f => f.1 = k) = none := by
        refine find?_eq_none.mpr fun f hf => ?_
        simpa using fun hfk => hhead (mem_map.mpr ⟨f, hf, hfk.trans hk.symm⟩)
      rw [hnone, find?_cons_of_pos (by simpa using hk), if_pos hk.symm]
      rfl
    · rw [find?_cons_of_neg (by simpa using hk), if_neg fun h => hk h.symm]

/-- What the writes of `value` leave of it and of the children, when an element is to have another. -/
def settleValue (write : Setter) (current wanted : Option String) (children : List DomNode) :
    Option (Option String × List DomNode) :=
  match wanted with
  | some text => write (some text) text children
  | none => if current.isSome then write none "" children else some (none, children)

/-- Setting every wanted attribute: the names but `value` have their values, and `value` is settled. -/
theorem foldlM_applySingleAttribute : ∀ (entries : List (String × String)) (e : Parts),
    (∀ a ∈ entries, isSupportedAttribute a.1 = true) → (entries.map Prod.fst).Nodup →
    entries.foldlM (fun e a => applySingleAttribute write e a.1 a.2) e =
      (((entries.find? fun a => a.1 = "value").map Prod.snd).elim (some (e.1.get? "value", e.2))
        fun text => write (some text) text e.2).map fun left =>
          (withValue (entries.foldl (fun c a => c.insert a.1 a.2) e.1) left.1, left.2)
  | [], e, _, _ => by simp [withValue_self]
  | (name, text) :: entries, e, h, hnodup => by
    obtain ⟨hfresh, hrest⟩ := nodup_cons.mp hnodup
    have ih := fun e => foldlM_applySingleAttribute entries e
      (fun a ha => h a (mem_cons_of_mem _ ha)) hrest
    rw [foldlM_cons, applySingleAttribute, if_pos (h _ mem_cons_self), writeValue]
    by_cases hname : name = "value"
    · subst hname
      have hnone : entries.find? (fun a => a.1 = "value") = none :=
        find?_eq_none.mpr fun a ha => by simpa using fun heq => hfresh (mem_map.mpr ⟨a, ha, heq⟩)
      rw [if_pos rfl, SortedMap.get?_insert_self, find?_cons_of_pos (by simp)]
      simp only [Option.bind_eq_bind, Option.map_some, Option.elim_some]
      cases write (some text) text e.2 with
      | none => rfl
      | some left =>
        rw [Option.map_some, Option.bind_some, ih, hnone]
        simp only [Option.map_none, Option.elim_none, Option.map_some, get?_withValue, if_true,
          foldl_cons]
        rw [withValue_congr fun k hk => ?_]
        rw [get?_foldl_insert k _ _ hrest, get?_foldl_insert k _ _ hrest, get?_withValue, if_neg hk]
    · rw [if_neg hname, find?_cons_of_neg (by simpa using hname)]
      simp only [Option.bind_eq_bind, Option.bind_some, ih, foldl_cons]
      rw [SortedMap.get?_insert_of_ne (Ne.symm hname)]

/-- The names that go, in one step. -/
theorem get?_foldl_erase (k : String) : ∀ (names : List String) (current : SortedMap String String),
    (names.foldl (fun c name => if (attrs.get? name).isNone then c.erase name else c) current).get? k =
      if k ∈ names ∧ attrs.get? k = none then none else current.get? k
  | [], current => by simp
  | name :: names, current => by
    rw [foldl_cons, get?_foldl_erase k names]
    by_cases hk : k = name
    · subst hk
      by_cases hwant : attrs.get? k = none <;>
        simp [hwant, SortedMap.get?_erase, Option.isNone_iff_eq_none]
    · have hstep : (if (attrs.get? name).isNone then current.erase name else current).get? k =
          current.get? k := by
        split
        · rw [SortedMap.get?_erase, if_neg hk]
        · rfl
      rw [hstep]
      simp only [mem_cons, hk, false_or]

/-- Removing what is not wanted: `value` is settled where it is among them. -/
theorem removeUnwanted_spec : ∀ (names : List String) (e : Parts),
    (∀ name ∈ names, isSupportedAttribute name = true) → names.Nodup →
    removeUnwanted write attrs names e =
      (if "value" ∈ names ∧ attrs.get? "value" = none ∧ (e.1.get? "value").isSome then
        write none "" e.2 else some (e.1.get? "value", e.2)).map fun left =>
          (withValue (names.foldl
            (fun c name => if (attrs.get? name).isNone then c.erase name else c) e.1) left.1, left.2)
  | [], e, _, _ => by simp [removeUnwanted, withValue_self]
  | name :: names, e, h, hnodup => by
    obtain ⟨hfresh, hrest⟩ := nodup_cons.mp hnodup
    have ih := fun e => removeUnwanted_spec names e (fun n hn => h n (mem_cons_of_mem _ hn)) hrest
    rw [removeUnwanted, foldlM_cons]
    change (if _ then _ else _ : Option Parts).bind (removeUnwanted write attrs names) = _
    by_cases hgoes : (attrs.get? name).isNone = true ∧ (e.1.get? name).isSome = true
    · obtain ⟨hwant, hhas⟩ := hgoes
      rw [hwant, hhas, Bool.and_self, if_pos rfl, removeSingleAttribute, if_pos (h _ mem_cons_self),
        writeValue, foldl_cons, if_pos hwant]
      by_cases hname : name = "value"
      · subst hname
        rw [if_pos rfl, if_pos ⟨mem_cons_self, Option.isNone_iff_eq_none.mp hwant, hhas⟩]
        simp only [SortedMap.get?_erase, if_true]
        cases write none "" e.2 with
        | none => rfl
        | some left =>
          rw [Option.map_some, Option.bind_some, ih, if_neg fun hmem => hfresh hmem.1]
          simp only [Option.map_some, get?_withValue, if_true]
          rw [withValue_congr fun k hk => ?_]
          rw [get?_foldl_erase, get?_foldl_erase, get?_withValue, if_neg hk]
      · rw [if_neg hname, Option.bind_some, ih]
        simp only [SortedMap.get?_erase, mem_cons, Ne.symm hname, false_or, if_false]
    · have hstay : (if (attrs.get? name).isNone then e.1.erase name else e.1) = e.1 := by
        split
        · next hwant =>
          refine SortedMap.ext_get? fun k => ?_
          rw [SortedMap.get?_erase]
          split
          · next hk =>
            rw [hk, Option.not_isSome_iff_eq_none.mp fun hhas => hgoes ⟨hwant, hhas⟩]
          · rfl
        · rfl
      rw [if_neg (by rwa [Bool.and_eq_true]), Option.bind_some, ih, foldl_cons, hstay]
      by_cases hname : name = "value"
      · subst hname
        rw [if_neg fun hmem => hfresh hmem.1, if_neg fun hmem => hgoes
          ⟨Option.isNone_iff_eq_none.mpr hmem.2.1, hmem.2.2⟩]
      · simp only [mem_cons, Ne.symm hname, false_or]

/-- The attributes an element ends with, but for `value`: the wanted ones, and those that had a name
outside the fixed list. -/
def settledAttributes (current attrs : SortedMap String String) : SortedMap String String :=
  supportedAttributes.foldl (fun c name => if (attrs.get? name).isNone then c.erase name else c)
    (attrs.list.foldl (fun c a => c.insert a.1 a.2) current)

theorem get?_settledAttributes (k : String) : (settledAttributes current attrs).get? k =
    (attrs.get? k).or (if k ∈ supportedAttributes then none else current.get? k) := by
  rw [settledAttributes, get?_foldl_erase, get?_foldl_insert k _ _ (attrs.pairwise_keys.imp ne_of_lt)]
  change (if _ then none else (attrs.get? k).or (current.get? k)) = _
  cases attrs.get? k <;> simp

/-- **An element after a snapshot**: its `value` and its children are settled, and the other attributes
are the wanted ones and those outside the fixed list. -/
theorem applyAttributes_spec (h : ∀ name ∈ attrs.keys, isSupportedAttribute name = true) :
    applyAttributes write (current, children) attrs =
      (settleValue write (current.get? "value") (attrs.get? "value") children).map fun left =>
        (withValue (settledAttributes current attrs) left.1, left.2) := by
  have hsupported : ∀ a ∈ attrs.list, isSupportedAttribute a.1 = true := fun a ha =>
    h a.1 (mem_map_of_mem ha)
  have hfixed : ∀ name ∈ supportedAttributes, isSupportedAttribute name = true := fun name hname => by
    simp [isSupportedAttribute, hname]
  have hvalue : "value" ∈ supportedAttributes := by decide +kernel
  have hnodup : supportedAttributes.Nodup := by decide +kernel
  -- the names that go do not depend on `value`
  have hsame : ∀ v w : Option String, withValue (supportedAttributes.foldl
      (fun c name => if (attrs.get? name).isNone then c.erase name else c)
      (withValue (attrs.list.foldl (fun c a => c.insert a.1 a.2) current) v)) w =
        withValue (settledAttributes current attrs) w := fun v w =>
    withValue_congr fun k hk => by
      rw [get?_foldl_erase, settledAttributes, get?_foldl_erase, get?_withValue, if_neg hk]
  rw [applyAttributes, foldlM_applySingleAttribute _ _ hsupported (attrs.pairwise_keys.imp ne_of_lt),
    show (attrs.list.find? fun a => a.1 = "value").map Prod.snd = attrs.get? "value" from rfl]
  cases hwant : attrs.get? "value" with
  | none =>
    rw [Option.elim_none, Option.map_some, Option.bind_some, removeUnwanted_spec _ _ hfixed hnodup]
    simp only [get?_withValue, if_true, hvalue, hwant, true_and, settleValue, hsame]
    cases current.get? "value" <;> rfl
  | some text =>
    rw [Option.elim_some, settleValue]
    cases write (some text) text children with
    | none => rfl
    | some left =>
      rw [Option.map_some, Option.bind_some, removeUnwanted_spec _ _ hfixed hnodup,
        if_neg fun hmem => by simp [hwant] at hmem]
      simp only [Option.map_some, get?_withValue, if_true, hsame]

/-- The attributes are the wanted ones exactly where `value` is, and every name outside the fixed list
that the element had is wanted too. -/
theorem withValue_settledAttributes {v : Option String} :
    withValue (settledAttributes current attrs) v = attrs ↔ v = attrs.get? "value" ∧
      ∀ name ∈ current.keys, name ∉ supportedAttributes → name ∈ attrs.keys := by
  have hvalue : "value" ∈ supportedAttributes := by decide +kernel
  constructor
  · intro heq
    refine ⟨by rw [← heq, get?_withValue, if_pos rfl], fun name hname hfixed => ?_⟩
    have hne : name ≠ "value" := fun h => hfixed (h ▸ hvalue)
    rw [SortedMap.mem_keys] at hname ⊢
    rw [← heq, get?_withValue, if_neg hne, get?_settledAttributes, if_neg hfixed]
    cases attrs.get? name with
    | none => exact hname
    | some text => rfl
  · rintro ⟨rfl, hall⟩
    refine SortedMap.ext_get? fun k => ?_
    rw [get?_withValue, get?_settledAttributes]
    split
    · next h => rw [h]
    cases hwant : attrs.get? k with
    | some text => rfl
    | none =>
      rw [Option.none_or, ite_eq_left_iff]
      intro hfixed
      by_contra hhas
      have hmem := hall k (SortedMap.mem_keys.mpr (Option.isSome_iff_ne_none.mpr hhas)) hfixed
      rw [SortedMap.mem_keys, hwant] at hmem
      exact Bool.noConfusion hmem

end Attributes

/-! ## Nodes -/

namespace DomNode

mutual

/-- A fresh node; `svg` is set under an `svg` element.  An error where a name is not supported. -/
def renderNode (page : Page) (path : List ℕ) (svg : Bool) : DomNode → Option DomNode
  | .text s => some (.text s)
  | .element tag attrs children =>
    if tag ∉ supportedTags then none
    else if (svg || tag = "svg") && tag ∉ svgTags then none
    else
      (applyAttributes (page path tag) (.empty, []) attrs).bind fun e =>
        -- the children go behind what a write of `value` has put there
        (renderNodes page path 0 (svg || tag = "svg") children).map fun rendered =>
          .element tag e.1 (e.2 ++ rendered)

def renderNodes (page : Page) (path : List ℕ) (i : ℕ) (svg : Bool) :
    List DomNode → Option (List DomNode)
  | [] => some []
  | child :: children =>
    (renderNode page (path ++ [i]) svg child).bind fun child =>
      (renderNodes page path (i + 1) svg children).map (child :: ·)

end

mutual

/-- The node that stands for the snapshot's in the place of `current`. -/
def reconcileNode (page : Page) (path : List ℕ) (current : Option DomNode) :
    DomNode → Option DomNode
  | .text s => some (.text s)
  | .element tag attrs children =>
    if tag ∉ supportedTags then none
    else
      match current with
      | some (.element tag' attrs' children') =>
        if tag' = tag then
          -- the payload of a snapshot has no `id` and no `class` field, so both are dropped first
          (applyAttributes (page path tag) ((attrs'.erase "id").erase "class", children') attrs).bind
            fun e => (reconcileChildren page path 0 e.2 children).map (.element tag e.1)
        else renderNode page path false (.element tag attrs children)
      | _ => renderNode page path false (.element tag attrs children)

/-- Child by child in the place of the old one; what stands past the last is removed. -/
def reconcileChildren (page : Page) (path : List ℕ) (i : ℕ) (current : List DomNode) :
    List DomNode → Option (List DomNode)
  | [] => some []
  | node :: nodes =>
    (reconcileNode page (path ++ [i]) current.head? node).bind fun next =>
      (reconcileChildren page path (i + 1) current.tail nodes).map (next :: ·)

end

/-- A snapshot's root becomes the one child of the mount. -/
def applySnapshot (page : Page) (mount : List DomNode) (root : DomNode) : Option (List DomNode) :=
  reconcileChildren page [] 0 mount [root]

end DomNode

/-- The browser as the client of a patch, for a page. -/
def Page.client (page : Page) : Client where
  renderNode := DomNode.renderNode page [] false
  setAttr tag attrs children name value :=
    (applySingleAttribute (page [] tag) (attrs, children) name value).map fun e => .element tag e.1 e.2
  removeAttr tag attrs children name :=
    (removeSingleAttribute (page [] tag) (attrs, children) name).map fun e => .element tag e.1 e.2

namespace DomNode

/-! ## Valid roots and what is left over -/

mutual

/-- The client's own checks: supported tags and attributes, and only SVG tags under an `svg`. -/
def isValid (svg : Bool) : DomNode → Bool
  | .text _ => true
  | .element tag attrs children =>
    tag ∈ supportedTags && (!(svg || tag = "svg") || tag ∈ svgTags) &&
      attrs.keys.all isSupportedAttribute && areValid (svg || tag = "svg") children

def areValid (svg : Bool) : List DomNode → Bool
  | [] => true
  | child :: children => isValid svg child && areValid svg children

end

mutual

/-- Each write of a `value` leaves the fresh element as it is to be, and empty. -/
def Draws (page : Page) (path : List ℕ) : DomNode → Prop
  | .text _ => True
  | .element tag attrs children =>
    settleValue (page path tag) none (attrs.get? "value") [] = some (attrs.get? "value", []) ∧
      DrawAll page path 0 children

def DrawAll (page : Page) (path : List ℕ) (i : ℕ) : List DomNode → Prop
  | [] => True
  | node :: nodes => Draws page (path ++ [i]) node ∧ DrawAll page path (i + 1) nodes

end

mutual

/-- **What it takes for a snapshot to be reached.**  Wherever an element is reused, each of its
attributes outside the fixed list is one that the snapshot sets too, and the write of its `value`
leaves it as the snapshot has it; what is rendered is drawn as it is. -/
def Reaches (page : Page) (path : List ℕ) (current : Option DomNode) : DomNode → Prop
  | .text _ => True
  | .element tag attrs children =>
    match current with
    | some (.element tag' attrs' children') =>
      if tag' = tag then
        (∀ name ∈ attrs'.keys, name ∉ supportedAttributes → name ∈ attrs.keys) ∧
          ∃ left, settleValue (page path tag) (attrs'.get? "value") (attrs.get? "value") children' =
            some (attrs.get? "value", left) ∧ ReachAll page path 0 left children
      else Draws page path (.element tag attrs children)
    | _ => Draws page path (.element tag attrs children)

def ReachAll (page : Page) (path : List ℕ) (i : ℕ) (current : List DomNode) : List DomNode → Prop
  | [] => True
  | node :: nodes =>
    Reaches page (path ++ [i]) current.head? node ∧ ReachAll page path (i + 1) current.tail nodes

end

theorem isValid_element {svg : Bool} {tag : String} {attrs : SortedMap String String}
    {children : List DomNode} (h : isValid svg (.element tag attrs children) = true) :
    tag ∈ supportedTags ∧ ((svg || tag = "svg") = true → tag ∈ svgTags) ∧
      (∀ name ∈ attrs.keys, isSupportedAttribute name = true) ∧
      areValid (svg || tag = "svg") children = true := by
  simp only [isValid, Bool.and_eq_true, Bool.or_eq_true, Bool.not_eq_true', all_eq_true,
    decide_eq_true_eq] at h
  obtain ⟨⟨⟨htag, hsvg⟩, hattrs⟩, hchildren⟩ := h
  refine ⟨htag, fun hin => hsvg.resolve_left ?_, hattrs, hchildren⟩
  rw [hin]
  exact Bool.noConfusion

mutual

/-- What is valid under an `svg` is valid anywhere. -/
theorem isValid_of_svg : ∀ {node : DomNode}, isValid true node = true → isValid false node = true
  | .text _, _ => rfl
  | .element tag attrs children, h => by
    obtain ⟨htag, hsvg, hattrs, hchildren⟩ := isValid_element h
    have hchildren' : areValid (false || decide (tag = "svg")) children = true := by
      cases decide (tag = "svg") with
      | true => exact hchildren
      | false => exact areValid_of_svg hchildren
    have htags : tag ∈ svgTags := hsvg rfl
    simp only [isValid, htag, htags, hchildren', Bool.and_eq_true, Bool.or_true, all_eq_true,
      decide_true, and_true, true_and]
    exact hattrs

theorem areValid_of_svg : ∀ {nodes : List DomNode}, areValid true nodes = true →
    areValid false nodes = true
  | [], _ => rfl
  | node :: nodes, h => by
    obtain ⟨hnode, hnodes⟩ := Bool.and_eq_true_iff.mp h
    exact Bool.and_eq_true_iff.mpr ⟨isValid_of_svg hnode, areValid_of_svg hnodes⟩

end

/-- The children of a valid element are valid anywhere. -/
theorem areValid_children {svg : Bool} {tag : String} {attrs : SortedMap String String}
    {children : List DomNode} (h : isValid svg (.element tag attrs children) = true) :
    areValid false children = true := by
  obtain ⟨-, -, -, hchildren⟩ := isValid_element h
  cases hsvg : (svg || decide (tag = "svg")) with
  | false => rwa [hsvg] at hchildren
  | true => exact areValid_of_svg (by rwa [hsvg] at hchildren)

variable {page : Page} {path : List ℕ}

theorem length_renderNodes {svg : Bool} : ∀ {nodes rendered : List DomNode} {i : ℕ},
    renderNodes page path i svg nodes = some rendered → rendered.length = nodes.length
  | [], _, _, h => by
    obtain rfl := Option.some.inj h
    rfl
  | node :: nodes, rendered, i, h => by
    obtain ⟨first, -, h⟩ := Option.bind_eq_some_iff.mp h
    obtain ⟨rest, hrest, rfl⟩ := Option.map_eq_some_iff.mp h
    rw [length_cons, length_renderNodes hrest, length_cons]

mutual

/-- **A valid node is rendered as it stands** exactly where the writes of values leave it so. -/
theorem renderNode_iff : ∀ {node : DomNode} {path : List ℕ} {svg : Bool}, isValid svg node = true →
    (renderNode page path svg node = some node ↔ Draws page path node)
  | .text _, _, _, _ => by simp [renderNode, Draws]
  | .element tag attrs children, path, svg, h => by
    obtain ⟨htag, hsvg, hattrs, hchildren⟩ := isValid_element h
    have hcheck : ((svg || decide (tag = "svg")) && decide (tag ∉ svgTags)) = false := by
      cases hin : (svg || decide (tag = "svg")) with
      | false => rfl
      | true => simpa using hsvg hin
    have ih : renderNodes page path 0 _ children = some children ↔ _ := renderNodes_iff hchildren
    rw [renderNode, if_neg (not_not_intro htag), hcheck, if_neg Bool.false_ne_true,
      applyAttributes_spec hattrs, SortedMap.get?_empty, Draws]
    constructor
    · intro h
      obtain ⟨e, he, h⟩ := Option.bind_eq_some_iff.mp h
      obtain ⟨left, hleft, rfl⟩ := Option.map_eq_some_iff.mp he
      obtain ⟨rendered, hrendered, heq⟩ := Option.map_eq_some_iff.mp h
      obtain ⟨-, hattributes, hall⟩ := DomNode.element.inj heq
      have hall : left.2 ++ rendered = children := hall
      have hvalue := (withValue_settledAttributes.mp hattributes).1
      have hnone : left.2 = [] := by
        have hlength := congrArg length hall
        rw [length_append, length_renderNodes hrendered] at hlength
        exact length_eq_zero_iff.mp (by omega)
      rw [hnone, nil_append] at hall
      exact ⟨by rw [hleft, ← hvalue, ← hnone], ih.mp (hall ▸ hrendered)⟩
    · rintro ⟨hvalue, hall⟩
      have hattributes : withValue (settledAttributes .empty attrs) (attrs.get? "value") = attrs :=
        withValue_settledAttributes.mpr ⟨rfl, fun _ hname => absurd hname not_mem_nil⟩
      rw [hvalue, Option.map_some, Option.bind_some, ih.mpr hall, Option.map_some, hattributes]
      rfl

theorem renderNodes_iff : ∀ {nodes : List DomNode} {path : List ℕ} {i : ℕ} {svg : Bool},
    areValid svg nodes = true →
    (renderNodes page path i svg nodes = some nodes ↔ DrawAll page path i nodes)
  | [], _, _, _, _ => by simp [renderNodes, DrawAll]
  | node :: nodes, path, i, svg, h => by
    obtain ⟨hnode, hnodes⟩ := Bool.and_eq_true_iff.mp h
    rw [renderNodes, DrawAll, ← renderNode_iff hnode, ← renderNodes_iff hnodes]
    simp [Option.bind_eq_some_iff]

end

mutual

/-- **A valid node is reached exactly so.** -/
theorem reconcileNode_iff : ∀ {node : DomNode} {path : List ℕ} (current : Option DomNode),
    isValid false node = true →
    (reconcileNode page path current node = some node ↔ Reaches page path current node)
  | .text s, _, current, _ => by simp [reconcileNode, Reaches]
  | .element tag attrs children, path, current, hvalid => by
    obtain ⟨htag, -, hattrs, -⟩ := isValid_element hvalid
    have hrender : renderNode page path false (.element tag attrs children) =
        some (.element tag attrs children) ↔ _ := renderNode_iff hvalid
    rw [reconcileNode.eq_def, Reaches.eq_def]
    dsimp only
    rw [if_neg (not_not_intro htag)]
    match current with
    | none => exact hrender
    | some (.text _) => exact hrender
    | some (.element tag' attrs' children') =>
      dsimp only
      by_cases htag' : tag' = tag
      · subst htag'
        have hkeys : ∀ name ∉ supportedAttributes,
            name ∈ ((attrs'.erase "id").erase "class").keys ↔ name ∈ attrs'.keys := by
          intro name hname
          have hclass : name ≠ "class" := fun heq => hname (heq ▸ by decide +kernel)
          have hid : name ≠ "id" := fun heq => hname (heq ▸ by decide +kernel)
          rw [SortedMap.mem_keys, SortedMap.mem_keys, SortedMap.get?_erase, if_neg hclass,
            SortedMap.get?_erase, if_neg hid]
        have hvalue : ((attrs'.erase "id").erase "class").get? "value" = attrs'.get? "value" := by
          rw [SortedMap.get?_erase, if_neg (by decide), SortedMap.get?_erase, if_neg (by decide)]
        rw [if_pos rfl, if_pos rfl, applyAttributes_spec hattrs, hvalue]
        constructor
        · intro h
          obtain ⟨e, he, h⟩ := Option.bind_eq_some_iff.mp h
          obtain ⟨left, hleft, rfl⟩ := Option.map_eq_some_iff.mp he
          obtain ⟨kids, hkids, heq⟩ := Option.map_eq_some_iff.mp h
          obtain ⟨-, hattributes, rfl⟩ := DomNode.element.inj heq
          obtain ⟨hvalue, hcustom⟩ := withValue_settledAttributes.mp hattributes
          refine ⟨fun name hname hfixed => hcustom name ((hkeys name hfixed).mpr hname) hfixed, left.2,
            by rw [hleft, ← hvalue], ?_⟩
          exact (reconcileChildren_iff _ (areValid_children hvalid)).mp hkids
        · rintro ⟨hcustom, left, hleft, hall⟩
          have hattributes : withValue (settledAttributes ((attrs'.erase "id").erase "class") attrs)
              (attrs.get? "value") = attrs := withValue_settledAttributes.mpr
            ⟨rfl, fun name hname hfixed => hcustom name ((hkeys name hfixed).mp hname) hfixed⟩
          rw [hleft, Option.map_some, Option.bind_some,
            (reconcileChildren_iff left (areValid_children hvalid)).mpr hall,
              Option.map_some, hattributes]
      · rw [if_neg htag', if_neg htag']
        exact hrender

theorem reconcileChildren_iff : ∀ {nodes : List DomNode} {path : List ℕ} {i : ℕ}
    (current : List DomNode), areValid false nodes = true →
    (reconcileChildren page path i current nodes = some nodes ↔ ReachAll page path i current nodes)
  | [], _, _, _, _ => by simp [reconcileChildren, ReachAll]
  | node :: nodes, path, i, current, h => by
    obtain ⟨hnode, hnodes⟩ := Bool.and_eq_true_iff.mp h
    rw [reconcileChildren, ReachAll, ← reconcileNode_iff _ hnode, ← reconcileChildren_iff _ hnodes]
    simp [Option.bind_eq_some_iff]

end

/-- **A snapshot is reached exactly where no reused element has an attribute outside the fixed list
that the snapshot leaves out, and no write of a `value` leaves something else.** -/
theorem applySnapshot_exact_iff (page : Page) (mount : List DomNode) (root : DomNode)
    (hvalid : isValid false root = true) :
    applySnapshot page mount root = some [root] ↔ Reaches page [0] mount.head? root := by
  have hall : areValid false [root] = true := by rw [areValid, hvalid]; rfl
  rw [applySnapshot, reconcileChildren_iff mount hall, ReachAll, ReachAll, and_true]
  rfl

/-- A browser whose buttons have their `value` in the attribute, and whose other elements apart. -/
def html : Page := fun _ tag attr text children =>
  some (if tag = "button" then some text else attr, children)

/-- An element with one attribute and a text. -/
def labelled (tag name value text : String) : DomNode :=
  .element tag (SortedMap.empty.insert name value) [.text text]

/-- An input with a text of its own and a marked button are brought to the next snapshot. -/
theorem applySnapshot_exact_iff_form : applySnapshot html
    [.element "form" .empty [labelled "input" "value" "a" "",
      labelled "button" "data-x" "1" "b", .text ""]]
    (.element "form" .empty [labelled "input" "value" "c" "", labelled "button" "data-x" "2" "d"]) =
      some [.element "form" .empty
        [labelled "input" "value" "c" "", labelled "button" "data-x" "2" "d"]] := by
  refine (applySnapshot_exact_iff html _ _ (by decide +kernel)).mpr ?_
  have hsame : ∀ (keys : List String), ∀ name ∈ keys, name ∉ supportedAttributes → name ∈ keys :=
    fun _ _ hname _ => hname
  exact ⟨hsame [], _, rfl, ⟨hsame ["value"], _, rfl, trivial, trivial⟩,
    ⟨hsame ["data-x"], _, rfl, trivial, trivial⟩, trivial⟩

/-- **What is left over**: a `data-x` that the next snapshot has not stays, and so does the `value`
of a button, emptied: its attribute is removed, and then its property written. -/
theorem custom_attribute_left_over :
    isValid false (labelled "div" "data-x" "1" "") = true ∧
      isValid false (labelled "button" "value" "x" "") = true ∧
    isValid false (.element "div" .empty []) = true ∧
      isValid false (.element "button" .empty []) = true ∧
    (applySnapshot html [] (labelled "div" "data-x" "1" "") = some [labelled "div" "data-x" "1" ""] ∧
      applySnapshot html [labelled "div" "data-x" "1" ""] (.element "div" .empty []) =
        some [.element "div" (SortedMap.empty.insert "data-x" "1") []]) ∧
    applySnapshot html [] (labelled "button" "value" "x" "") =
      some [labelled "button" "value" "x" ""] ∧
      applySnapshot html [labelled "button" "value" "x" ""] (.element "button" .empty []) =
        some [.element "button" (SortedMap.empty.insert "value" "") []] := by
  decide +kernel

end DomNode

end Mica
