import Mica.Kernel.NegatedDelta
import Mica.Lib.Saturation

/-!
# Kernel/RuleInference — rules as an inference system

A **fact** is a row of a relation.  Rules make an inference system of facts: a step takes the rows
of a derivation that negation lets through to the head tuple.  What a rule can derive in one step
from some collections is what has active derivations there (`infers_iff`), and a derivation
determines its rows (`unifyAll_injective`), so fewer rows give fewer derivations.
-/

open SortedList List
open Option (some.inj)

namespace Mica

/-! ## The rows of a derivation -/

section Derivations

variable {rule : CompiledRule} {collections collections' : Collections} {b : Binding}

/-- The rows of the positive atoms of a rule. -/
def CompiledRule.factors (rule : CompiledRule) (collections : Collections) :
    List (CompiledAtom × List Tuple) :=
  rule.positiveAtoms.map fun atom => (atom, (collections atom.relation).list)

/-- The rows have the arity of their atoms. -/
def CompiledRule.RowsFit (rule : CompiledRule) (collections : Collections) : Prop :=
  ∀ atom ∈ rule.positiveAtoms, ∀ t ∈ collections atom.relation, t.length = atom.terms.length

theorem CompiledRule.RowsFit.valid (h : rule.RowsFit collections) :
    FactorsValid (rule.factors collections) := by
  intro factor hfactor
  obtain ⟨atom, hatom, rfl⟩ := mem_map.mp hfactor
  exact ⟨(collections atom.relation).sorted.imp ne_of_lt, h atom hatom⟩

theorem mem_derivations : b ∈ rule.derivations collections ↔
    (∃ rows, List.Forall₂ (fun atom t => t ∈ collections atom.relation) rule.positiveAtoms rows ∧
      unifyAll rule.positiveAtoms rows (Binding.unbound rule.slotCount) = some b) ∧
      rule.guardsMatch b = true := by
  have hatoms : (rule.factors collections).map Prod.fst = rule.positiveAtoms := by
    rw [CompiledRule.factors, map_map]
    exact map_id _
  rw [CompiledRule.derivations, mem_filter, ← CompiledRule.factors, mem_bindingsOf, hatoms]
  refine and_congr_left fun _ => exists_congr fun rows => and_congr_left fun _ => ?_
  rw [CompiledRule.factors, forall₂_map_left_iff]
  rfl

/-- A binding that was built from rows has their values. -/
theorem unifyAll_eval : ∀ {atoms : List CompiledAtom} {rows : List Tuple} {binding next : Binding},
    List.Forall₂ (fun atom t => t.length = atom.terms.length) atoms rows →
      unifyAll atoms rows binding = some next →
      (∀ slot v, binding.get slot = some v → next.get slot = some v) ∧
        List.Forall₂ (fun atom t => atom.terms.map (fun term => term.eval next) = t.map some)
          atoms rows
  | [], [], binding, next, _, h => by
    obtain rfl := some.inj h
    exact ⟨fun _ _ h => h, .nil⟩
  | atom :: atoms, t :: rows, binding, next, .cons hlength hlengths, h => by
    obtain ⟨middle, hfirst, hrest⟩ := Option.bind_eq_some_iff.mp h
    obtain ⟨hkeeps, hrows⟩ := unifyAll_eval hlengths hrest
    refine ⟨fun slot v hv => hkeeps slot v (unify_keeps hfirst hv), .cons ?_ hrows⟩
    have hmiddle := unify_eval hfirst hlength
    rw [← hmiddle]
    refine map_congr_left fun term hterm => ?_
    have hsome : term.eval middle ∈ t.map some := hmiddle ▸ mem_map.mpr ⟨term, hterm, rfl⟩
    obtain ⟨v, -, hv⟩ := mem_map.mp hsome
    cases term with
    | value expected => rfl
    | var symbol slot => exact (hkeeps slot v hv.symm).trans hv

/-- **A binding determines the rows that it was built from.** -/
theorem unifyAll_injective {atoms : List CompiledAtom} {rows rows' : List Tuple}
    {binding next : Binding}
    (hlengths : List.Forall₂ (fun atom t => t.length = atom.terms.length) atoms rows)
    (hlengths' : List.Forall₂ (fun atom t => t.length = atom.terms.length) atoms rows')
    (h : unifyAll atoms rows binding = some next) (h' : unifyAll atoms rows' binding = some next) :
    rows = rows' := by
  have hrows := (unifyAll_eval hlengths h).2
  have hrows' := (unifyAll_eval hlengths' h').2
  clear h h' hlengths hlengths'
  induction hrows generalizing rows' with
  | nil => exact (forall₂_nil_left_iff.mp hrows').symm
  | cons hfirst _ ih =>
    cases hrows' with
    | cons hfirst' hrest' =>
      rw [ih hrest', map_injective_iff.mpr (Option.some_injective _) (hfirst.symm.trans hfirst')]

theorem CompiledRule.RowsFit.lengths (h : rule.RowsFit collections) {rows : List Tuple}
    (hrows : List.Forall₂ (fun atom t => t ∈ collections atom.relation) rule.positiveAtoms rows) :
    List.Forall₂ (fun atom t => t.length = atom.terms.length) rule.positiveAtoms rows := by
  unfold CompiledRule.RowsFit at h
  generalize rule.positiveAtoms = atoms at h hrows
  induction hrows with
  | nil => exact .nil
  | cons ht _ ih =>
    obtain ⟨hatom, hatoms⟩ := forall_mem_cons.mp h
    exact .cons (hatom _ ht) (ih hatoms)

/-- Each binding is derived once. -/
theorem nodup_derivations (h : rule.RowsFit collections) : (rule.derivations collections).Nodup := by
  refine nodup_iff_count_le_one.mpr fun b => ?_
  have hcount := rule.count_derivations collections b
  have hone := (le_abs_self _).trans (abs_factorChain_le h.valid rule.slotCount b)
  split_ifs at hcount
  · rw [bodyChain, ← CompiledRule.factors] at hcount
    omega
  · omega

/-- More rows give more derivations. -/
theorem derivations_mono (h : ∀ atom ∈ rule.positiveAtoms, ∀ t ∈ collections atom.relation,
    t ∈ collections' atom.relation) : rule.derivations collections ⊆ rule.derivations
      collections' := by
  intro b hb
  obtain ⟨⟨rows, hrows, hunify⟩, hguards⟩ := mem_derivations.mp hb
  refine mem_derivations.mpr ⟨⟨rows, ?_, hunify⟩, hguards⟩
  clear hunify hb
  generalize rule.positiveAtoms = atoms at h hrows
  induction hrows with
  | nil => exact .nil
  | cons ht _ ih =>
    obtain ⟨hatom, hatoms⟩ := forall_mem_cons.mp h
    exact .cons (hatom _ ht) (ih hatoms)

end Derivations

/-! ## The inference system -/

/-- The facts of collections. -/
def factsOf (collections : Collections) : Set Fact := {f | f.2 ∈ collections f.1}

/-- The facts that atoms take from their rows. -/
def bodyFacts (atoms : List CompiledAtom) (rows : List Tuple) : List Fact :=
  List.zipWith (fun atom t => (atom.relation, t)) atoms rows

theorem forall_bodyFacts {F : Set Fact} : ∀ {atoms : List CompiledAtom} {rows : List Tuple},
    (rows.length = atoms.length ∧ ∀ g ∈ bodyFacts atoms rows, g ∈ F) ↔
      List.Forall₂ (fun atom t => (atom.relation, t) ∈ F) atoms rows
  | [], [] => by simp [bodyFacts]
  | [], _ :: _ => by simp [bodyFacts]
  | _ :: _, [] => by simp [bodyFacts]
  | atom :: atoms, t :: rows => by
    rw [forall₂_cons, ← forall_bodyFacts, bodyFacts, zipWith_cons_cons,
      forall_mem_cons, length_cons, length_cons, Nat.add_right_cancel_iff]
    exact and_left_comm

theorem relation_of_mem_bodyFacts {g : Fact} : ∀ {atoms : List CompiledAtom} {rows : List Tuple},
    g ∈ bodyFacts atoms rows → ∃ atom ∈ atoms, atom.relation = g.1
  | [], _, h => nomatch h
  | _ :: _, [], h => nomatch h
  | atom :: atoms, t :: rows, h => by
    rcases mem_cons.mp h with rfl | h
    · exact ⟨atom, mem_cons_self, rfl⟩
    · obtain ⟨other, hmem, heq⟩ := relation_of_mem_bodyFacts h
      exact ⟨other, .tail _ hmem, heq⟩

/-- **The inference system of rules**: the given rows, and the derivations that the rows of the
negated relations let through. -/
def ruleInference (rules : List CompiledRule) (given negated : Collections) : Inference Fact where
  given := factsOf given
  step body head := ∃ rule ∈ rules, ∃ rows b, rows.length = rule.positiveAtoms.length ∧
    body = bodyFacts rule.positiveAtoms rows ∧
    unifyAll rule.positiveAtoms rows (Binding.unbound rule.slotCount) = some b ∧
    rule.guardsMatch b = true ∧ rule.blocked negated b = false ∧
    rule.headRelation = head.1 ∧ rule.derives head.2 b = true

variable {rules : List CompiledRule} {given negated collections : Collections} {f : Fact}

/-- One step from collections is an active derivation there. -/
theorem infers_iff : (ruleInference rules given negated).Infers (factsOf collections) f ↔
    ∃ rule ∈ rules, rule.headRelation = f.1 ∧ ∃ b ∈ rule.derivations collections,
      rule.blocked negated b = false ∧ rule.derives f.2 b = true := by
  constructor
  · rintro ⟨_, ⟨rule, hrule, rows, b, hlen, rfl, hunify, hguards, hblocked, hhead, hderives⟩, hbody⟩
    exact ⟨rule, hrule, hhead, b, mem_derivations.mpr
      ⟨⟨rows, forall_bodyFacts.mp ⟨hlen, hbody⟩, hunify⟩, hguards⟩, hblocked, hderives⟩
  rintro ⟨rule, hrule, hhead, b, hb, hblocked, hderives⟩
  obtain ⟨⟨rows, hrows, hunify⟩, hguards⟩ := mem_derivations.mp hb
  have hbody := (forall_bodyFacts (F := factsOf collections)).mpr hrows
  exact ⟨_, ⟨rule, hrule, rows, b, hbody.1, rfl, hunify, hguards, hblocked, hhead, hderives⟩,
    hbody.2⟩

/-! ## Negation -/

section Blocked

variable {rule : CompiledRule} {rows rows' : Collections} {b : Binding}

/-- More rows block more. -/
theorem blocked_mono (h : ∀ atom ∈ rule.negatedAtoms, ∀ t ∈ rows atom.relation,
    t ∈ rows' atom.relation) (hb : rule.blocked rows' b = false) : rule.blocked rows b = false := by
  by_contra hblocked
  rw [Bool.not_eq_false, blocked_iff] at hblocked
  obtain ⟨atom, hatom, t, ht, hmem⟩ := hblocked
  have htrue := blocked_iff.mpr ⟨atom, hatom, t, ht, h atom hatom t hmem⟩
  rw [hb] at htrue
  cases htrue

theorem blocked_congr (h : ∀ atom ∈ rule.negatedAtoms, ∀ t, t ∈ rows atom.relation ↔
    t ∈ rows' atom.relation) : rule.blocked rows b = rule.blocked rows' b := by
  cases hb : rule.blocked rows' b with
  | false => exact blocked_mono (fun atom hatom t => (h atom hatom t).mp) hb
  | true =>
    by_contra hne
    have hfalse := blocked_mono (fun atom hatom t => (h atom hatom t).mpr) (Bool.not_eq_true _ ▸ hne)
    rw [hb] at hfalse
    cases hfalse

end Blocked

/-! ## The order of the atoms -/

/-- Atoms with their rows may be unified in any order. -/
theorem unifyAll_perm {atoms atoms' : List CompiledAtom} (h : atoms.Perm atoms') :
    ∀ {rows : List Tuple}, rows.length = atoms.length → ∃ rows', rows'.length = atoms'.length ∧
      (bodyFacts atoms' rows').Perm (bodyFacts atoms rows) ∧
      ∀ b, unifyAll atoms' rows' b = unifyAll atoms rows b := by
  induction h with
  | nil => exact fun {rows} hlen => ⟨rows, hlen, .refl _, fun _ => rfl⟩
  | cons atom _ ih =>
    intro rows hlen
    cases rows with
    | nil => exact nomatch hlen
    | cons t rows =>
      obtain ⟨rows', hlen', hfacts, hunify⟩ := ih (Nat.succ.inj hlen)
      refine ⟨t :: rows', congrArg Nat.succ hlen', hfacts.cons _, fun b => ?_⟩
      exact congrArg (Option.bind (unify atom b t)) (funext hunify)
  | swap first second atoms =>
    intro rows hlen
    cases rows with
    | nil => exact nomatch hlen
    | cons t rows =>
      cases rows with
      | nil => exact nomatch hlen
      | cons u rows =>
        refine ⟨u :: t :: rows, hlen, .swap _ _ _, fun b => ?_⟩
        calc ((unify first b u).bind fun c => (unify second c t).bind (unifyAll atoms rows))
            = ((unify first b u).bind fun c => unify second c t).bind (unifyAll atoms rows) :=
              (Option.bind_assoc _ _ _).symm
          _ = ((unify second b t).bind fun c => unify first c u).bind (unifyAll atoms rows) := by
              rw [unify_comm]
          _ = (unify second b t).bind fun c => (unify first c u).bind (unifyAll atoms rows) :=
              Option.bind_assoc _ _ _
  | trans _ _ ih ih' =>
    intro rows hlen
    obtain ⟨rows', hlen', hfacts, hunify⟩ := ih hlen
    obtain ⟨rows'', hlen'', hfacts', hunify'⟩ := ih' hlen'
    exact ⟨rows'', hlen'', hfacts'.trans hfacts, fun b => (hunify' b).trans (hunify b)⟩

/-! ## The values of a derivation -/

/-- A slot takes its value from a column. -/
theorem get_bindColumns : ∀ {columns : List (CompiledTerm × Value)} {binding next : Binding},
    bindColumns columns binding = some next → ∀ slot v, next.get slot = some v →
      binding.get slot = some v ∨ ∃ column ∈ columns, column.2 = v
  | [], binding, next, h, slot, v, hv => by
    obtain rfl := some.inj h
    exact .inl hv
  | (term, value) :: columns, binding, next, h, slot, v, hv => by
    obtain ⟨middle, hfirst, hrest⟩ := Option.bind_eq_some_iff.mp h
    rcases get_bindColumns hrest slot v hv with hv | ⟨column, hcolumn, rfl⟩
    · rw [(CompiledTerm.bind_spec hfirst).2.2 slot] at hv
      split_ifs at hv
      · exact .inr ⟨_, mem_cons_self, some.inj hv⟩
      · exact .inl hv
    · exact .inr ⟨column, .tail _ hcolumn, rfl⟩

theorem get_unifyAll : ∀ {atoms : List CompiledAtom} {rows : List Tuple} {binding next : Binding},
    unifyAll atoms rows binding = some next → ∀ slot v, next.get slot = some v →
      binding.get slot = some v ∨ ∃ g ∈ bodyFacts atoms rows, v ∈ g.2
  | [], [], binding, next, h, slot, v, hv => by
    obtain rfl := some.inj h
    exact .inl hv
  | [], _ :: _, _, _, h, _, _, _ => nomatch h
  | _ :: _, [], _, _, h, _, _, _ => nomatch h
  | atom :: atoms, t :: rows, binding, next, h, slot, v, hv => by
    obtain ⟨middle, hfirst, hrest⟩ := Option.bind_eq_some_iff.mp h
    rcases get_unifyAll hrest slot v hv with hv | ⟨g, hg, hv⟩
    · rcases get_bindColumns hfirst slot v hv with hv | ⟨column, hcolumn, rfl⟩
      · exact .inl hv
      · exact .inr ⟨_, mem_cons_self, (of_mem_zip hcolumn).2⟩
    · exact .inr ⟨g, .tail _ hg, hv⟩

/-- The values of instantiated terms. -/
theorem instantiateTerms_values {unbound : Symbol → KernelError} {binding : Binding} :
    ∀ {terms : List CompiledTerm} {t : Tuple}, instantiateTerms unbound binding terms = .ok t →
      t.length = terms.length ∧
        ∀ v ∈ t, CompiledTerm.value v ∈ terms ∨ ∃ slot, binding.get slot = some v
  | [], t, h => by
    obtain rfl := Except.ok.inj h
    exact ⟨rfl, fun _ h => absurd h not_mem_nil⟩
  | .value w :: terms, t, h => by
    unfold instantiateTerms at h
    rcases hrest : instantiateTerms unbound binding terms with _ | rest
    · rw [hrest] at h
      cases h
    rw [hrest] at h
    obtain rfl := Except.ok.inj h
    obtain ⟨hlen, hvalues⟩ := instantiateTerms_values hrest
    refine ⟨congrArg Nat.succ hlen, forall_mem_cons.mpr ⟨.inl mem_cons_self, ?_⟩⟩
    exact fun v hv => (hvalues v hv).imp_left (.tail _)
  | .var symbol slot :: terms, t, h => by
    unfold instantiateTerms at h
    rcases hget : binding.get slot with _ | w
    · rw [hget] at h
      cases h
    rw [hget] at h
    rcases hrest : instantiateTerms unbound binding terms with _ | rest
    · rw [hrest] at h
      cases h
    rw [hrest] at h
    obtain rfl := Except.ok.inj h
    obtain ⟨hlen, hvalues⟩ := instantiateTerms_values hrest
    refine ⟨congrArg Nat.succ hlen, forall_mem_cons.mpr ⟨.inr ⟨slot, hget⟩, ?_⟩⟩
    exact fun v hv => (hvalues v hv).imp_left (.tail _)

theorem CompiledRule.instantiateHead_of_derives {rule : CompiledRule} {head : Tuple} {b : Binding}
    (h : rule.derives head b = true) : rule.instantiateHead b = .ok head := by
  unfold CompiledRule.derives at h
  rcases hhead : rule.instantiateHead b with _ | t
  · rw [hhead] at h
    cases h
  rw [hhead, beq_iff_eq] at h
  exact congrArg Except.ok (some.inj h)

end Mica
