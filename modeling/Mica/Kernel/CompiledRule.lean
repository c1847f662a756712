import Mica.Kernel.Rules
import Mica.Var.LanguageCmp

/-!
# Kernel/CompiledRule — rules with their names in slots

`compileRule` gives each variable of a rule a slot, in the order they are first met; a **binding**
is what the slots hold so far.  `unify` binds the terms of an atom to a row: a constant or a bound
slot must hold the value of its column, an empty slot takes it.

Binding two columns in either order gives the same binding (`bind_comm`), so atoms may be unified
in any order (`unify_comm`); and a binding remembers the row and the binding it came from
(`unify_injective`).
-/

open List
open Option (some.inj)

namespace Mica

/-! ## Compiled rules -/

inductive CompiledTerm where
  | var (symbol : Symbol) (slot : ℕ)
  | value (value : Value)
  deriving DecidableEq

/-- `compiled_term_slot`. -/
def CompiledTerm.slot? : CompiledTerm → Option ℕ
  | .var _ slot => some slot
  | .value _ => none

structure CompiledAtom where
  relation : RelationId
  terms : List CompiledTerm
  negated : Bool
  deriving DecidableEq

structure CompiledGuard where
  op : RuleComparisonOp
  left : CompiledTerm
  right : CompiledTerm
  deriving DecidableEq

inductive CompiledBodyItem where
  | atom (atom : CompiledAtom)
  | guard (guard : CompiledGuard)
  deriving DecidableEq

/-- The terms of a body item. -/
def CompiledBodyItem.terms : CompiledBodyItem → List CompiledTerm
  | .atom a => a.terms
  | .guard g => [g.left, g.right]

/-- **A compiled rule**: every slot that a term names is one of the rule's slots. -/
structure CompiledRule where
  headRelation : RelationId
  headTerms : List CompiledTerm
  body : List CompiledBodyItem
  slotCount : ℕ
  slots_lt : ∀ term ∈ headTerms ++ body.flatMap CompiledBodyItem.terms,
    ∀ slot ∈ term.slot?, slot < slotCount

namespace CompiledRule

/-- `rule_atoms`. -/
def bodyAtoms (rule : CompiledRule) : List CompiledAtom :=
  rule.body.filterMap fun
    | .atom atom => some atom
    | .guard _ => none

/-- `positive_rule_atoms`. -/
def positiveAtoms (rule : CompiledRule) : List CompiledAtom :=
  rule.bodyAtoms.filter fun atom => !atom.negated

/-- `negated_rule_atoms`. -/
def negatedAtoms (rule : CompiledRule) : List CompiledAtom :=
  rule.bodyAtoms.filter fun atom => atom.negated

/-- The guards of a body. -/
def guards (rule : CompiledRule) : List CompiledGuard :=
  rule.body.filterMap fun
    | .atom _ => none
    | .guard guard => some guard

/-- `has_negation`. -/
def hasNegation (rule : CompiledRule) : Bool := !rule.negatedAtoms.isEmpty

end CompiledRule

/-! ## Compilation

The map from variables to slots is the list of the variables met so far. -/

/-- `compile_term`. -/
def compileTerm (names : List Symbol) : Term → List Symbol × CompiledTerm
  | .value value => (names, .value value)
  | .var name =>
    (if name ∈ names then names else names ++ [name],
      .var name (names.idxOf name))

def compileTerms (names : List Symbol) : List Term → List Symbol × List CompiledTerm
  | [] => (names, [])
  | term :: terms =>
    let first := compileTerm names term
    let rest := compileTerms first.1 terms
    (rest.1, first.2 :: rest.2)

def compileBodyItem (names : List Symbol) : RuleBodyItem → List Symbol × CompiledBodyItem
  | .atom atom =>
    let terms := compileTerms names atom.terms
    (terms.1, .atom ⟨atom.relation, terms.2, atom.negated⟩)
  | .guard guard =>
    let left := compileTerm names guard.left
    let right := compileTerm left.1 guard.right
    (right.1, .guard ⟨guard.op, left.2, right.2⟩)

def compileBody (names : List Symbol) : List RuleBodyItem → List Symbol × List CompiledBodyItem
  | [] => (names, [])
  | item :: items =>
    let first := compileBodyItem names item
    let rest := compileBody first.1 items
    (rest.1, first.2 :: rest.2)

/-- Compiling from the names `before` to the names `after` keeps the slots inside. -/
def SlotsWithin (before after : List Symbol) (terms : List CompiledTerm) : Prop :=
  before.length ≤ after.length ∧ ∀ term ∈ terms, ∀ slot ∈ term.slot?, slot < after.length

theorem SlotsWithin.append {a b c : List Symbol} {terms terms' : List CompiledTerm}
    (h : SlotsWithin a b terms) (h' : SlotsWithin b c terms') : SlotsWithin a c (terms ++ terms') := by
  refine ⟨h.1.trans h'.1, fun term hterm slot hslot => ?_⟩
  rcases mem_append.mp hterm with hterm | hterm
  · exact (h.2 term hterm slot hslot).trans_le h'.1
  · exact h'.2 term hterm slot hslot

theorem slotsWithin_compileTerm (names : List Symbol) : ∀ term : Term,
    SlotsWithin names (compileTerm names term).1 [(compileTerm names term).2]
  | .value value => ⟨le_rfl, by simp [compileTerm, CompiledTerm.slot?]⟩
  | .var name => by
    rw [compileTerm]
    by_cases h : name ∈ names
    · rw [if_pos h]
      exact ⟨le_rfl, by simpa [CompiledTerm.slot?] using idxOf_lt_length_of_mem h⟩
    · rw [if_neg h]
      refine ⟨by simp, ?_⟩
      simpa [CompiledTerm.slot?] using Nat.lt_succ_of_le idxOf_le_length

theorem slotsWithin_compileTerms : ∀ (terms : List Term) (names : List Symbol),
    SlotsWithin names (compileTerms names terms).1 (compileTerms names terms).2
  | [], names => ⟨le_rfl, by simp [compileTerms]⟩
  | term :: terms, names =>
    (slotsWithin_compileTerm names term).append (slotsWithin_compileTerms terms _)

theorem slotsWithin_compileBodyItem (names : List Symbol) : ∀ item : RuleBodyItem,
    SlotsWithin names (compileBodyItem names item).1 (compileBodyItem names item).2.terms
  | .atom atom => slotsWithin_compileTerms atom.terms names
  | .guard guard =>
    (slotsWithin_compileTerm names guard.left).append (slotsWithin_compileTerm _ guard.right)

theorem slotsWithin_compileBody : ∀ (items : List RuleBodyItem) (names : List Symbol),
    SlotsWithin names (compileBody names items).1
      ((compileBody names items).2.flatMap CompiledBodyItem.terms)
  | [], names => ⟨le_rfl, by simp [compileBody]⟩
  | item :: items, names =>
    (slotsWithin_compileBodyItem names item).append (slotsWithin_compileBody items _)

/-- `compile_rule`. -/
def compileRule (rule : Rule) : CompiledRule :=
  let head := compileTerms [] rule.headTerms
  let body := compileBody head.1 rule.body
  { headRelation := rule.headRelation
    headTerms := head.2
    body := body.2
    slotCount := body.1.length
    slots_lt :=
      ((slotsWithin_compileTerms rule.headTerms []).append
        (slotsWithin_compileBody rule.body head.1)).2 }

/-! ## Bindings -/

instance : DecidableLE (Option Value)
  | none, _ => isTrue Option.none_le
  | some _, none => isFalse (by simp)
  | some a, some b => decidable_of_iff (a ≤ b) Option.some_le_some.symm

instance : DecidableLT (Option Value)
  | _, none => isFalse Option.not_lt_none
  | none, some _ => isTrue Option.none_lt_some
  | some a, some b => decidable_of_iff (a < b) Option.some_lt_some.symm

/-- `Ord for Option<Value>`: an empty slot comes first. -/
instance : LinearOrder (Option Value) where
  min a b := if a ≤ b then a else b
  max a b := if a ≤ b then b else a
  compare a b := if a < b then .lt else if a = b then .eq else .gt
  le_refl o := by cases o <;> simp
  le_trans a b c hab hbc := by
    cases a <;> cases b <;> cases c <;> simp_all
    exact hab.trans hbc
  le_antisymm a b hab hba := by
    cases a <;> cases b <;> simp_all
    exact le_antisymm hab hba
  le_total a b := by
    cases a <;> cases b <;> simp
    exact le_total _ _
  lt_iff_le_not_ge a b := by
    cases a <;> cases b <;> simp
    exact fun h => h.le
  toDecidableLE := inferInstance
  toDecidableLT := inferInstance
  compare_eq_compareOfLessAndEq _ _ := rfl

/-- What the slots hold. -/
abbrev Binding := List (Option Value)

namespace Binding

/-- The binding with every slot empty. -/
def unbound (slotCount : ℕ) : Binding := List.replicate slotCount none

/-- `binding[slot]`. -/
def get (binding : Binding) (slot : ℕ) : Option Value := binding[slot]?.join

end Binding

/-- `term_value`. -/
def CompiledTerm.eval : CompiledTerm → Binding → Option Value
  | .value v, _ => some v
  | .var _ slot, binding => binding.get slot

/-- One column of `unify`.  A slot past the end panics in the source; `slots_lt` excludes it. -/
def CompiledTerm.bind (value : Value) : CompiledTerm → Binding → Option Binding
  | .value expected, binding => if expected = value then some binding else none
  | .var _ slot, binding =>
    match binding[slot]? with
    | none => none
    | some none => some (binding.set slot (some value))
    | some (some bound) => if bound = value then some binding else none

def bindColumns : List (CompiledTerm × Value) → Binding → Option Binding
  | [], binding => some binding
  | column :: columns, binding => (column.1.bind column.2 binding).bind (bindColumns columns)

/-- `unify`, which is also `unify_tuple`. -/
def unify (atom : CompiledAtom) (binding : Binding) (tuple : Tuple) : Option Binding :=
  bindColumns (atom.terms.zip tuple) binding

/-! ## Guards -/

/-- `compare_values`. -/
def compareValues : RuleComparisonOp → Value → Value → Bool
  | .eq, left, right => numericEq left right
  | .ne, left, right => !numericEq left right
  | .lt, left, right => numericCmp left right == .lt
  | .le, left, right => numericCmp left right == .lt || numericCmp left right == .eq
  | .gt, left, right => numericCmp left right == .gt
  | .ge, left, right => numericCmp left right == .gt || numericCmp left right == .eq

/-- `guard_matches`. -/
def CompiledGuard.matches (guard : CompiledGuard) (binding : Binding) : Bool :=
  match guard.left.eval binding, guard.right.eval binding with
  | some left, some right => compareValues guard.op left right
  | _, _ => false

/-- The test of `filter_guards`. -/
def CompiledRule.guardsMatch (rule : CompiledRule) (binding : Binding) : Bool :=
  rule.guards.all fun guard => guard.matches binding

/-! ## Instances -/

/-- The values of terms, or an error that names the first variable without one. -/
def instantiateTerms (unbound : Symbol → KernelError) (binding : Binding) :
    List CompiledTerm → Except KernelError Tuple
  | [] => .ok []
  | .value v :: terms => (instantiateTerms unbound binding terms).map fun rest => v :: rest
  | .var symbol slot :: terms =>
    match binding.get slot with
    | none => .error (unbound symbol)
    | some v => (instantiateTerms unbound binding terms).map fun rest => v :: rest

/-- `instantiate_head`. -/
def CompiledRule.instantiateHead (rule : CompiledRule) (binding : Binding) :
    Except KernelError Tuple :=
  instantiateTerms (fun symbol => .rule (.unboundHeadVariable symbol)) binding rule.headTerms

/-- `instantiate_atom`. -/
def CompiledAtom.instantiate (atom : CompiledAtom) (binding : Binding) : Except KernelError Tuple :=
  instantiateTerms (fun _ => .rule (.unsafeNegation atom.relation)) binding atom.terms

/-! ## Unification -/

namespace Binding

variable {binding other : Binding} {slot : ℕ} {value : Value}

theorem get_set (h : binding[slot]? = some none) (slot' : ℕ) :
    Binding.get (binding.set slot (some value)) slot' =
      if slot' = slot then some value else binding.get slot' := by
  have hlt : slot < binding.length := (List.getElem?_eq_some_iff.mp h).1
  rw [get, get, getElem?_set]
  by_cases heq : slot' = slot
  · rw [if_pos heq.symm, if_pos (heq ▸ hlt), if_pos heq]
    rfl
  · rw [if_neg (Ne.symm heq), if_neg heq]

/-- A slot is bound. -/
def Bound (binding : Binding) (slot : ℕ) : Prop := (binding.get slot).isSome = true

instance (binding : Binding) (slot : ℕ) : Decidable (binding.Bound slot) :=
  inferInstanceAs (Decidable (_ = true))

/-- Bindings of one length are equal when their slots are. -/
theorem ext_get (hlen : binding.length = other.length)
    (h : ∀ slot, binding.get slot = other.get slot) : binding = other := by
  refine ext_getElem? fun slot => ?_
  by_cases hlt : slot < binding.length
  · have hget := h slot
    rw [get, get, getElem?_eq_getElem hlt, getElem?_eq_getElem (hlen ▸ hlt)] at hget
    rw [getElem?_eq_getElem hlt, getElem?_eq_getElem (hlen ▸ hlt)]
    exact congrArg some hget
  · rw [getElem?_eq_none (not_lt.mp hlt), getElem?_eq_none (hlen ▸ not_lt.mp hlt)]

@[simp] theorem get_unbound (slotCount slot : ℕ) : (unbound slotCount).get slot = none := by
  rw [get, unbound, getElem?_replicate]
  split <;> rfl

end Binding

variable {value : Value} {term : CompiledTerm} {atom : CompiledAtom} {binding next : Binding}
  {columns : List (CompiledTerm × Value)} {tuple : Tuple}

namespace CompiledTerm

theorem bind_value {expected : Value} :
    (CompiledTerm.value expected).bind value binding = some next ↔
      expected = value ∧ next = binding := by
  rw [bind]
  split_ifs with h
  · exact ⟨fun he => ⟨h, (some.inj he).symm⟩, fun he => congrArg some he.2.symm⟩
  · exact ⟨nofun, fun he => absurd he.1 h⟩

/-- A variable is either bound to the value or takes it. -/
theorem bind_var {symbol : Symbol} {slot : ℕ} :
    (CompiledTerm.var symbol slot).bind value binding = some next ↔
      binding.get slot = some value ∧ next = binding ∨
        binding[slot]? = some none ∧ next = binding.set slot (some value) := by
  rw [bind, Binding.get]
  cases h : binding[slot]? with
  | none =>
    refine ⟨nofun, fun he => ?_⟩
    rcases he with ⟨he, -⟩ | ⟨he, -⟩
    · cases he
    · cases he
  | some o =>
    cases o with
    | none =>
      refine ⟨fun he => .inr ⟨rfl, (some.inj he).symm⟩, fun he => ?_⟩
      rcases he with ⟨he, -⟩ | ⟨-, rfl⟩
      · cases he
      · rfl
    | some bound =>
      by_cases heq : bound = value
      · subst heq
        refine ⟨fun he => .inl ⟨rfl, ?_⟩, fun he => ?_⟩
        · exact (some.inj ((if_pos rfl).symm.trans he)).symm
        · rcases he with ⟨-, rfl⟩ | ⟨he, -⟩
          · exact if_pos rfl
          · cases he
      · refine ⟨fun he => (nomatch (if_neg heq).symm.trans he), fun he => ?_⟩
        rcases he with ⟨he, -⟩ | ⟨he, -⟩
        · exact absurd (some.inj he) heq
        · cases he

/-- What a term does to a binding: nothing is lost, the term evaluates to the value, and only its
own slot may be new. -/
theorem bind_spec (h : term.bind value binding = some next) :
    next.length = binding.length ∧ term.eval next = some value ∧
      ∀ slot, next.get slot = if slot ∈ term.slot? then some value else binding.get slot := by
  cases term with
  | value expected =>
    obtain ⟨rfl, rfl⟩ := bind_value.mp h
    exact ⟨rfl, rfl, fun slot => (if_neg (Option.not_mem_none slot)).symm⟩
  | var symbol slot =>
    have hmem : ∀ slot', slot' ∈ (CompiledTerm.var symbol slot).slot? ↔ slot' = slot := fun slot' =>
      Option.mem_some.trans eq_comm
    rcases bind_var.mp h with ⟨hget, rfl⟩ | ⟨hget, rfl⟩
    · refine ⟨rfl, hget, fun slot' => ?_⟩
      by_cases heq : slot' = slot
      · rw [if_pos ((hmem _).mpr heq), heq, hget]
      · rw [if_neg (mt (hmem _).mp heq)]
    refine ⟨length_set, ?_, fun slot' => ?_⟩
    · rw [eval, Binding.get_set hget, if_pos rfl]
    · rw [Binding.get_set hget]
      by_cases heq : slot' = slot
      · rw [if_pos heq, if_pos ((hmem _).mpr heq)]
      · rw [if_neg heq, if_neg (mt (hmem _).mp heq)]

/-- A term that already evaluates to the value leaves the binding alone. -/
theorem bind_of_eval (h : term.eval binding = some value) :
    term.bind value binding = some binding := by
  cases term with
  | value expected => exact bind_value.mpr ⟨some.inj h, rfl⟩
  | var symbol slot => exact bind_var.mpr (.inl ⟨h, rfl⟩)

/-- A term fails where it already evaluates to something else. -/
theorem eval_eq_of_bind (h : term.bind value binding = some next) {v : Value}
    (hv : term.eval binding = some v) : v = value := by
  cases term with
  | value expected => exact (some.inj hv).symm.trans (bind_value.mp h).1
  | var symbol slot =>
    rcases bind_var.mp h with ⟨hget, -⟩ | ⟨hget, -⟩
    · exact some.inj (hv.symm.trans hget)
    · rw [eval, Binding.get, hget] at hv
      cases hv

end CompiledTerm

/-- What unifying columns does to a binding. -/
theorem bindColumns_spec : ∀ {columns : List (CompiledTerm × Value)} {binding next : Binding},
    bindColumns columns binding = some next →
      next.length = binding.length ∧
      (∀ column ∈ columns, column.1.eval next = some column.2) ∧
      (∀ slot v, binding.get slot = some v → next.get slot = some v) ∧
      ∀ slot, next.Bound slot ↔
        binding.Bound slot ∨ ∃ column ∈ columns, slot ∈ column.1.slot?
  | [], binding, next, h => by
    obtain rfl := some.inj h
    simp
  | (term, value) :: columns, binding, next, h => by
    obtain ⟨middle, hfirst, hrest⟩ := Option.bind_eq_some_iff.mp h
    obtain ⟨hlen, heval, hget⟩ := CompiledTerm.bind_spec hfirst
    obtain ⟨hlen', hevals, hkeep, hbound⟩ := bindColumns_spec hrest
    have hkept : ∀ slot v, binding.get slot = some v → middle.get slot = some v := by
      intro slot v hv
      rw [hget]
      split_ifs with hslot
      · cases term with
        | value expected => exact nomatch hslot
        | var symbol slot' =>
          obtain rfl : slot = slot' := (Option.mem_some.mp hslot).symm
          exact congrArg some (CompiledTerm.eval_eq_of_bind hfirst hv).symm
      · exact hv
    refine ⟨hlen'.trans hlen, ?_, fun slot v hv => hkeep slot v (hkept slot v hv), fun slot => ?_⟩
    · refine forall_mem_cons.mpr ⟨?_, hevals⟩
      cases term with
      | value expected => exact heval
      | var symbol slot => exact hkeep slot value heval
    rw [hbound, exists_mem_cons_iff, Binding.Bound, hget, ← or_assoc]
    refine or_congr_left ?_
    by_cases hslot : slot ∈ term.slot?
    · simp [hslot]
    · simp [hslot, Binding.Bound]

namespace CompiledTerm

/-- Half of `bind_comm`: a later column may come first. -/
private theorem bind_swap {term' : CompiledTerm} {value' : Value} {middle : Binding}
    (h : term.bind value binding = some middle) (h' : term'.bind value' middle = some next) :
    ∃ middle', term'.bind value' binding = some middle' ∧ term.bind value middle' = some next := by
  cases term with
  | value expected =>
    obtain ⟨rfl, rfl⟩ := bind_value.mp h
    exact ⟨next, h', bind_value.mpr ⟨rfl, rfl⟩⟩
  | var symbol slot =>
    cases term' with
    | value expected =>
      obtain ⟨rfl, rfl⟩ := bind_value.mp h'
      exact ⟨binding, bind_value.mpr ⟨rfl, rfl⟩, h⟩
    | var symbol' slot' =>
      rcases bind_var.mp h with ⟨hget, rfl⟩ | ⟨hget, rfl⟩
      · refine ⟨next, h', bind_of_eval ?_⟩
        by_cases hslot : slot = slot'
        · subst hslot
          obtain rfl := eval_eq_of_bind h' hget
          exact (bind_spec h').2.1
        · have hne : slot ∉ (CompiledTerm.var symbol' slot').slot? := fun hmem =>
            hslot (Option.mem_some.mp hmem).symm
          rwa [eval, (bind_spec h').2.2 slot, if_neg hne]
      · rcases bind_var.mp h' with ⟨hget', rfl⟩ | ⟨hget', rfl⟩
        · rw [Binding.get_set hget] at hget'
          split_ifs at hget' with hslot
          · obtain rfl := some.inj hget'
            subst hslot
            exact ⟨_, h, bind_of_eval (bind_spec h).2.1⟩
          · exact ⟨binding, bind_var.mpr (.inl ⟨hget', rfl⟩), h⟩
        rw [getElem?_set] at hget'
        by_cases hslot : slot = slot'
        · have hlt : slot < binding.length := (List.getElem?_eq_some_iff.mp hget).1
          rw [if_pos hslot, if_pos (hslot ▸ hlt)] at hget'
          cases hget'
        · rw [if_neg hslot] at hget'
          refine ⟨_, bind_var.mpr (.inr ⟨hget', rfl⟩), bind_var.mpr (.inr ⟨?_, ?_⟩)⟩
          · rw [getElem?_set, if_neg (Ne.symm hslot), hget]
          · exact set_comm _ _ hslot

/-- **Two columns may be bound in either order.** -/
theorem bind_comm (term term' : CompiledTerm) (value value' : Value) (binding : Binding) :
    (term.bind value binding).bind (term'.bind value') =
      (term'.bind value' binding).bind (term.bind value) := by
  refine Option.ext fun next => ?_
  constructor
  · intro h
    obtain ⟨middle, hm, hn⟩ := Option.bind_eq_some_iff.mp h
    obtain ⟨middle', hm', hn'⟩ := bind_swap hm hn
    exact Option.bind_eq_some_iff.mpr ⟨middle', hm', hn'⟩
  · intro h
    obtain ⟨middle, hm, hn⟩ := Option.bind_eq_some_iff.mp h
    obtain ⟨middle', hm', hn'⟩ := bind_swap hm hn
    exact Option.bind_eq_some_iff.mpr ⟨middle', hm', hn'⟩

end CompiledTerm

theorem bindColumns_bind (term : CompiledTerm) (value : Value) :
    ∀ (columns : List (CompiledTerm × Value)) (binding : Binding),
      (bindColumns columns binding).bind (term.bind value) =
        (term.bind value binding).bind (bindColumns columns)
  | [], binding => (Option.bind_fun_some _).symm
  | (term', value') :: columns, binding => by
    calc (bindColumns ((term', value') :: columns) binding).bind (term.bind value)
        = (term'.bind value' binding).bind fun next =>
            (bindColumns columns next).bind (term.bind value) := Option.bind_assoc _ _ _
      _ = ((term'.bind value' binding).bind (term.bind value)).bind (bindColumns columns) := by
          simp only [bindColumns_bind term value columns, Option.bind_assoc]
      _ = ((term.bind value binding).bind (term'.bind value')).bind (bindColumns columns) := by
          rw [CompiledTerm.bind_comm]
      _ = (term.bind value binding).bind (bindColumns ((term', value') :: columns)) :=
          Option.bind_assoc _ _ _

theorem bindColumns_comm (columns columns' : List (CompiledTerm × Value)) (binding : Binding) :
    (bindColumns columns binding).bind (bindColumns columns') =
      (bindColumns columns' binding).bind (bindColumns columns) := by
  induction columns' generalizing binding with
  | nil => exact Option.bind_fun_some _
  | cons column columns' ih =>
    calc (bindColumns columns binding).bind (bindColumns (column :: columns'))
        = ((bindColumns columns binding).bind (column.1.bind column.2)).bind
            (bindColumns columns') := by
          rw [Option.bind_assoc]
          rfl
      _ = (column.1.bind column.2 binding).bind fun next =>
            (bindColumns columns next).bind (bindColumns columns') := by
          rw [bindColumns_bind, Option.bind_assoc]
      _ = (column.1.bind column.2 binding).bind fun next =>
            (bindColumns columns' next).bind (bindColumns columns) := by simp only [ih]
      _ = (bindColumns (column :: columns') binding).bind (bindColumns columns) := by
          rw [bindColumns, Option.bind_assoc]

/-- **Atoms may be unified in either order.** -/
theorem unify_comm (atom atom' : CompiledAtom) (binding : Binding) (tuple tuple' : Tuple) :
    (unify atom binding tuple).bind (unify atom' · tuple') =
      (unify atom' binding tuple').bind (unify atom · tuple) :=
  bindColumns_comm _ _ binding

/-! ## What a binding remembers -/

/-- The slots that an atom names. -/
def CompiledAtom.slots (atom : CompiledAtom) : List ℕ := atom.terms.filterMap CompiledTerm.slot?

theorem unify_length (h : unify atom binding tuple = some next) : next.length = binding.length :=
  (bindColumns_spec h).1

theorem unify_keeps (h : unify atom binding tuple = some next) {slot : ℕ} {v : Value}
    (hv : binding.get slot = some v) : next.get slot = some v := (bindColumns_spec h).2.2.1 slot v hv

theorem exists_mem_zip_iff {tuple : Tuple} {slot : ℕ} : ∀ {terms : List CompiledTerm},
    tuple.length = terms.length →
      ((∃ column ∈ terms.zip tuple, slot ∈ column.1.slot?) ↔
        slot ∈ terms.filterMap CompiledTerm.slot?) := by
  intro terms hlen
  rw [mem_filterMap]
  constructor
  · rintro ⟨column, hmem, hslot⟩
    exact ⟨column.1, (of_mem_zip hmem).1, hslot⟩
  · rintro ⟨term, hterm, hslot⟩
    obtain ⟨i, hi, rfl⟩ := getElem_of_mem hterm
    refine ⟨(terms[i], tuple.get ⟨i, hlen ▸ hi⟩), ?_, hslot⟩
    exact mem_iff_getElem.mpr ⟨i, by simp [hlen, hi], by simp⟩

/-- An atom binds the slots it names. -/
theorem unify_bound (h : unify atom binding tuple = some next)
    (hlen : tuple.length = atom.terms.length) (slot : ℕ) :
    next.Bound slot ↔ binding.Bound slot ∨ slot ∈ atom.slots := by
  rw [(bindColumns_spec h).2.2.2 slot, exists_mem_zip_iff hlen]
  rfl

/-- The row is the values of the terms. -/
theorem unify_eval (h : unify atom binding tuple = some next)
    (hlen : tuple.length = atom.terms.length) :
    atom.terms.map (fun term => term.eval next) = tuple.map some := by
  have hcols := (bindColumns_spec h).2.1
  refine ext_getElem (by simp [hlen]) fun i hi hi' => ?_
  rw [length_map] at hi hi'
  have hmem : (atom.terms[i], tuple[i]) ∈ atom.terms.zip tuple :=
    mem_iff_getElem.mpr ⟨i, by simp [hi, hi'], by simp⟩
  simpa using hcols _ hmem

/-- **A binding remembers the row and the binding it came from.** -/
theorem unify_injective {binding' : Binding} {tuple' : Tuple}
    (h : unify atom binding tuple = some next) (h' : unify atom binding' tuple' = some next)
    (hlen : tuple.length = atom.terms.length) (hlen' : tuple'.length = atom.terms.length)
    (hbound : ∀ slot, binding.Bound slot ↔ binding'.Bound slot) :
    binding = binding' ∧ tuple = tuple' := by
  constructor
  · refine Binding.ext_get ((unify_length h).symm.trans (unify_length h')) fun slot => ?_
    cases hget : binding.get slot with
    | none =>
      have hnot : ¬ binding.Bound slot := by simp [Binding.Bound, hget]
      rw [hbound] at hnot
      exact (Option.not_isSome_iff_eq_none.mp hnot).symm
    | some v =>
      have hb : binding'.Bound slot := (hbound slot).mp (by simp [Binding.Bound, hget])
      obtain ⟨w, hw⟩ := Option.isSome_iff_exists.mp hb
      rw [hw, ← unify_keeps h hget, ← unify_keeps h' hw]
  · have hmap : tuple.map some = tuple'.map some :=
      (unify_eval h hlen).symm.trans (unify_eval h' hlen')
    exact map_injective_iff.mpr (Option.some_injective _) hmap

end Mica
