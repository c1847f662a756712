import Mica.Kernel.Delegation
import Mica.Kernel.DispatchParams
import Mica.Lib.Domination
import Mica.Lib.Specificity

/-!
# Kernel/DispatchSelection — from candidates to selected methods

The candidates of a selector are filtered by the arguments, and a method that another applicable one
is more specific than is pruned.  Methods compare parameter by parameter: a restriction implies
another one when a value equal to the restriction would match the other.

* `namedMethodMoreSpecific_spec`, `positionalMethodMoreSpecific_spec` — what the comparisons
  compute, where the delegation searches answer.
* `pruneMethods_spec`, `selectNamed_spec`, `selectPositional_spec` — what is left of the candidates.
-/

open List

namespace Mica

/-! ## The code -/

/-- `ApplicableMethod`. -/
structure ApplicableMethod where
  method : Value
  params : List Param
  deriving DecidableEq

/-- `frob_delegate`. -/
def Value.frobDelegate (v : Value) : Option Identity :=
  match v.raw with
  | .frob delegate _ => some delegate
  | _ => none

/-- `primitive_prototype_for_value`: the identities `0x00c0_0000_0000_0002` to
`0x00c0_0000_0000_0011`, in the order of the kinds. -/
def primitivePrototypeForValue (v : Value) : Identity where
  raw := 0x00c0_0000_0000_0001 + v.raw.kind.tag.toUInt64
  raw_le := by
    cases v.raw.kind <;> decide

/-- `FROB_PROTOTYPE`. -/
def frobPrototype : Identity := ⟨0x00c0_0000_0000_000f, by decide⟩

/-- The first answer, or the second if the first is no. -/
def orElseAsk (first second : Except KernelError Bool) : Except KernelError Bool :=
  match first with
  | .error e => .error e
  | .ok true => .ok true
  | .ok false => second

section Code

variable (names : DispatchNames) (reaches : Value → Value → Except KernelError Bool)

/-- `unrestricted_marker`. -/
def unrestrictedMarker : Value := .symbol names.unrestricted

/-- `frob_only_restriction`. -/
def frobOnlyRestriction (restriction : Value) : Option Value :=
  match restriction.raw with
  | .frob delegate (.symbol marker) =>
    if marker = names.frobOnly then some (.identity delegate) else none
  | _ => none

/-- `identity_matches`; `reaches` is `delegates_reaches` in the relation of the call. -/
def identityMatches (identity : Identity) (restriction : Value) : Except KernelError Bool :=
  if Value.identity identity = restriction then .ok true
  else reaches (.identity identity) restriction

/-- `matches_restriction`. -/
def matchesRestriction (value restriction : Value) : Except KernelError Bool :=
  if restriction = unrestrictedMarker names then .ok true
  else if value = restriction then .ok true
  else
    match frobOnlyRestriction names restriction with
    | some requiredDelegate =>
      match value.frobDelegate with
      | none => .ok false
      | some valueDelegate => identityMatches reaches valueDelegate requiredDelegate
    | none =>
      orElseAsk (if value.frobDelegate.isNone then reaches value restriction else .ok false)
        (match value.asIdentity with
        | some identity =>
          orElseAsk (identityMatches reaches identity restriction)
            (identityMatches reaches (primitivePrototypeForValue value) restriction)
        | none =>
          match value.frobDelegate with
          | some delegate =>
            orElseAsk (identityMatches reaches delegate restriction)
              (identityMatches reaches frobPrototype restriction)
          | none => identityMatches reaches (primitivePrototypeForValue value) restriction)

/-- `restriction_implies`. -/
def restrictionImplies (specific general : Value) : Except KernelError Bool :=
  if specific = general ∨ general = unrestrictedMarker names then .ok true
  else if specific = unrestrictedMarker names then .ok false
  else matchesRestriction names reaches specific general

/-- A check of every element, left at the first that fails. -/
def allMatch {α : Type} (check : α → Except KernelError Bool) : List α → Except KernelError Bool
  | [] => .ok true
  | a :: l =>
    match check a with
    | .error e => .error e
    | .ok false => .ok false
    | .ok true => allMatch check l

/-- `params_match`. -/
def paramsMatch (roles : List (Value × Value)) (params : List Param) : Except KernelError Bool :=
  match orderedParams params with
  | none => .ok false
  | some ordered =>
    match parameterLayout names ordered with
    | none => .ok false
    | some _ =>
      allMatch (fun param =>
        match namedArgument names roles param with
        | none => .ok false
        | some value => matchesRestriction names reaches value param.restriction) ordered

/-- `positional_params_match`. -/
def positionalParamsMatch (args : List Value) (params : List Param) : Except KernelError Bool :=
  match orderedParams params with
  | none => .ok false
  | some params =>
    match parameterLayout names params with
    | none => .ok false
    | some layout =>
      if args.length < layout.required ∨ (layout.rest = false ∧ layout.fixed < args.length) then
        .ok false
      else
        match allMatch (fun entry : Param × ℕ =>
            matchesRestriction names reaches (args[entry.2]?.getD entry.1.defaultValue)
              entry.1.restriction) (params.take layout.fixed).zipIdx with
        | .error e => .error e
        | .ok false => .ok false
        | .ok true =>
          match params[layout.fixed]? with
          | some param =>
            if layout.rest = true ∧ param.restriction ≠ unrestrictedMarker names then
              matchesRestriction names reaches (.list (args.drop layout.fixed)) param.restriction
            else .ok true
          | none => .ok true

/-- `param_for_role`. -/
def paramForRole (params : List Param) (role : Value) : Option Param :=
  params.find? fun param => param.role = role

/-- A parameter that says nothing about its role. -/
def Param.isOpen (param : Param) : Bool :=
  parameterMode names param = some .optional && param.restriction = unrestrictedMarker names

/-- The comparison of two restrictions, and whether the left one is stricter. -/
def compareRestrictions (left right : Value) : Except KernelError (Option Bool) :=
  match restrictionImplies names reaches left right with
  | .error e => .error e
  | .ok false => .ok none
  | .ok true => (restrictionImplies names reaches right left).map fun back => some (!back)

/-- The loop of `named_method_more_specific` over the right parameters. -/
def namedLoop (left : List Param) : List Param → Bool → Except KernelError Bool
  | [], stricter => .ok stricter
  | rightParam :: right, stricter =>
    match paramForRole left rightParam.role with
    | none => if rightParam.isOpen names then namedLoop left right stricter else .ok false
    | some leftParam =>
      let modes := (parameterMode names leftParam, parameterMode names rightParam)
      if modes ≠ (some .required, some .optional) ∧ modes.1 ≠ modes.2 then .ok false
      else
        match compareRestrictions names reaches leftParam.restriction rightParam.restriction with
        | .error e => .error e
        | .ok none => .ok false
        | .ok (some narrower) =>
          namedLoop left right
            (stricter || decide (modes = (some .required, some .optional)) || narrower)

/-- `named_method_more_specific`. -/
def namedMethodMoreSpecific (left right : ApplicableMethod) : Except KernelError Bool :=
  namedLoop names reaches left.params right.params
    (left.params.any fun param =>
      (paramForRole right.params param.role).isNone && !param.isOpen names)

/-- The loop of `positional_method_more_specific` over the right parameters from a position on. -/
def positionalLoop (left : List Param) (leftLayout rightLayout : ParameterLayout) :
    ℕ → List Param → Bool → Except KernelError Bool
  | _, [], stricter => .ok stricter
  | position, rightParam :: right, stricter =>
    match left[position]? with
    | none =>
      if leftLayout.rest = true ∧ rightParam.restriction ≠ unrestrictedMarker names then .ok false
      else positionalLoop left leftLayout rightLayout (position + 1) right stricter
    | some leftParam =>
      if leftLayout.fixed ≤ position ∧ position < rightLayout.fixed then
        if rightParam.restriction ≠ unrestrictedMarker names then .ok false
        else positionalLoop left leftLayout rightLayout (position + 1) right stricter
      else
        match compareRestrictions names reaches leftParam.restriction rightParam.restriction with
        | .error e => .error e
        | .ok none => .ok false
        | .ok (some narrower) =>
          positionalLoop left leftLayout rightLayout (position + 1) right (stricter || narrower)

/-- The layout of declared parameters, in order. -/
def orderedLayout (params : List Param) : Option (List Param × ParameterLayout) :=
  (orderedParams params).bind fun params =>
    (parameterLayout names params).map fun layout => (params, layout)

/-- `positional_method_more_specific`. -/
def positionalMethodMoreSpecific (left right : ApplicableMethod) : Except KernelError Bool :=
  match orderedLayout names left.params, orderedLayout names right.params with
  | some (leftParams, leftLayout), some (rightParams, rightLayout) =>
    if leftLayout.required < rightLayout.required ∨
        rightLayout.rest = false ∧
          (leftLayout.rest = true ∨ rightLayout.fixed < leftLayout.fixed) then .ok false
    else if rightLayout.rest = true ∧
        (rightParams[rightLayout.fixed]?.map Param.restriction) ≠ some (unrestrictedMarker names) ∧
        (leftLayout.rest = false ∨ leftLayout.fixed ≠ rightLayout.fixed) then .ok false
    else
      positionalLoop names reaches leftParams leftLayout rightLayout 0 rightParams
        (decide (rightLayout.required < leftLayout.required ∨
          leftLayout.rest = false ∧
            (rightLayout.rest = true ∨ leftLayout.fixed < rightLayout.fixed)))
  | _, _ => .ok false

/-- Whether another method dominates the candidate; the search stops at the first. -/
def isDominated (moreSpecific : ApplicableMethod → ApplicableMethod → Except KernelError Bool)
    (candidate : ApplicableMethod) : List ApplicableMethod → Except KernelError Bool
  | [] => .ok false
  | other :: methods =>
    if candidate.method = other.method then isDominated moreSpecific candidate methods
    else
      match moreSpecific other candidate with
      | .error e => .error e
      | .ok true => .ok true
      | .ok false => isDominated moreSpecific candidate methods

/-- The candidates that pass a check. -/
def keepUnless (check : ApplicableMethod → Except KernelError Bool) :
    List ApplicableMethod → Except KernelError (List ApplicableMethod)
  | [] => .ok []
  | candidate :: candidates =>
    match check candidate with
    | .error e => .error e
    | .ok true => keepUnless check candidates
    | .ok false => (keepUnless check candidates).map (candidate :: ·)

/-- `prune_named_methods` and `prune_positional_methods`. -/
def pruneMethods (moreSpecific : ApplicableMethod → ApplicableMethod → Except KernelError Bool)
    (methods : List ApplicableMethod) : Except KernelError (List ApplicableMethod) :=
  if methods.length ≤ 1 then .ok methods
  else keepUnless (fun candidate => isDominated moreSpecific candidate methods) methods

/-- `filter_method_candidates` and the loop of `filter_positional_candidates`. -/
def filterCandidates (check : List Param → Except KernelError Bool)
    (candidates : List ApplicableMethod) : Except KernelError (List ApplicableMethod) :=
  keepUnless (fun candidate => (check candidate.params).map (!·)) candidates

/-- `sort_by` on the methods. -/
def sortByMethod (methods : List ApplicableMethod) : List ApplicableMethod :=
  methods.insertionSort fun left right => left.method ≤ right.method

/-- `dedup_by` on the methods. -/
def dedupByMethod : List ApplicableMethod → List ApplicableMethod
  | [] => []
  | [entry] => [entry]
  | first :: second :: methods =>
    if first.method = second.method then dedupByMethod (first :: methods)
    else first :: dedupByMethod (second :: methods)
termination_by methods => methods.length

/-- What `applicable_method_entries` makes of the candidates of a selector. -/
def selectNamed (roles : List (Value × Value)) (candidates : List ApplicableMethod) :
    Except KernelError (List ApplicableMethod) :=
  (filterCandidates (paramsMatch names reaches roles) candidates).bind
    (pruneMethods (namedMethodMoreSpecific names reaches))

/-- The entries that `filter_positional_candidates` selects. -/
def selectPositional (args : List Value) (candidates : List ApplicableMethod) :
    Except KernelError (List ApplicableMethod) :=
  (filterCandidates (positionalParamsMatch names reaches args) candidates).bind fun methods =>
    pruneMethods (positionalMethodMoreSpecific names reaches) (dedupByMethod (sortByMethod methods))

end Code

/-! ## What the comparisons compute -/

section Spec

variable {names : DispatchNames} {reaches : Value → Value → Except KernelError Bool}

/-- `restriction_implies` says yes. -/
def Implies (names : DispatchNames) (reaches : Value → Value → Except KernelError Bool)
    (specific general : Value) : Prop :=
  restrictionImplies names reaches specific general = .ok true

theorem implies_refl (restriction : Value) : Implies names reaches restriction restriction :=
  if_pos (.inl rfl)

theorem implies_unrestricted (restriction : Value) :
    Implies names reaches restriction (unrestrictedMarker names) := if_pos (.inr rfl)

theorem eq_of_unrestricted_implies {restriction : Value}
    (h : Implies names reaches (unrestrictedMarker names) restriction) :
    restriction = unrestrictedMarker names := by
  by_contra hne
  unfold Implies restrictionImplies at h
  rw [if_neg (not_or.mpr ⟨Ne.symm hne, hne⟩), if_pos rfl] at h
  cases h

/-- The delegation searches answer. -/
def ReachAnswers (reaches : Value → Value → Except KernelError Bool) : Prop :=
  ∀ child ancestor, ∃ b, reaches child ancestor = .ok b

theorem identityMatches_total (h : ReachAnswers reaches) (identity : Identity)
    (restriction : Value) :
    ∃ b, identityMatches reaches identity restriction = .ok b := by
  unfold identityMatches
  split
  · exact ⟨true, rfl⟩
  · exact h _ _

theorem orElseAsk_total {first second : Except KernelError Bool} (h : ∃ b, first = .ok b)
    (h' : ∃ b, second = .ok b) : ∃ b, orElseAsk first second = .ok b := by
  obtain ⟨b, rfl⟩ := h
  cases b with
  | true => exact ⟨true, rfl⟩
  | false => exact h'

theorem matchesRestriction_total (h : ReachAnswers reaches) (value restriction : Value) :
    ∃ b, matchesRestriction names reaches value restriction = .ok b := by
  have hids := identityMatches_total h
  unfold matchesRestriction
  split
  · exact ⟨true, rfl⟩
  split
  · exact ⟨true, rfl⟩
  split
  · split
    · exact ⟨false, rfl⟩
    · exact hids _ _
  refine orElseAsk_total ?_ ?_
  · split
    · exact h _ _
    · exact ⟨false, rfl⟩
  split
  · exact orElseAsk_total (hids _ _) (hids _ _)
  · split
    · exact orElseAsk_total (hids _ _) (hids _ _)
    · exact hids _ _

theorem restrictionImplies_total (names : DispatchNames) (h : ReachAnswers reaches)
    (specific general : Value) :
    ∃ b, restrictionImplies names reaches specific general = .ok b := by
  unfold restrictionImplies
  split
  · exact ⟨true, rfl⟩
  split
  · exact ⟨false, rfl⟩
  · exact matchesRestriction_total h _ _

theorem restrictionImplies_eq_false (h : ReachAnswers reaches) {specific general : Value} :
    restrictionImplies names reaches specific general = .ok false ↔
      ¬ Implies names reaches specific general := by
  obtain ⟨b, hb⟩ := restrictionImplies_total names h specific general
  rw [Implies, hb]
  cases b <;> simp

/-- A comparison goes on when the left restriction implies the right one. -/
theorem compareRestrictions_of_implies (h : ReachAnswers reaches) {left right : Value}
    (himplies : Implies names reaches left right) :
    ∃ narrower, compareRestrictions names reaches left right = .ok (some narrower) ∧
      (narrower = true ↔ ¬ Implies names reaches right left) := by
  obtain ⟨b, hb⟩ := restrictionImplies_total names h right left
  refine ⟨!b, ?_, ?_⟩
  · rw [compareRestrictions, himplies, hb]
    rfl
  · rw [Implies, hb]
    cases b <;> simp

theorem compareRestrictions_of_not_implies (h : ReachAnswers reaches) {left right : Value}
    (himplies : ¬ Implies names reaches left right) :
    compareRestrictions names reaches left right = .ok none := by
  rw [compareRestrictions, (restrictionImplies_eq_false h).mpr himplies]

/-- A right parameter that the left parameters are at least as strict about. -/
def NamedFits (names : DispatchNames) (reaches : Value → Value → Except KernelError Bool)
    (left : List Param) (q : Param) : Prop :=
  match paramForRole left q.role with
  | none => q.isOpen names = true
  | some p =>
    (parameterMode names p = some .required ∧ parameterMode names q = some .optional ∨
      parameterMode names p = parameterMode names q) ∧
      Implies names reaches p.restriction q.restriction

/-- A right parameter that the left parameters are stricter about. -/
def NamedNarrows (names : DispatchNames) (reaches : Value → Value → Except KernelError Bool)
    (left : List Param) (q : Param) : Prop :=
  ∃ p, paramForRole left q.role = some p ∧
    (parameterMode names p = some .required ∧ parameterMode names q = some .optional ∨
      ¬ Implies names reaches q.restriction p.restriction)

/-- **The loop over named parameters.** -/
theorem namedLoop_spec (names : DispatchNames) (h : ReachAnswers reaches) (left : List Param) :
    ∀ (right : List Param) (stricter : Bool), ∃ b,
      namedLoop names reaches left right stricter = .ok b ∧
        (b = true ↔ (∀ q ∈ right, NamedFits names reaches left q) ∧
          (stricter = true ∨ ∃ q ∈ right, NamedNarrows names reaches left q))
  | [], stricter => ⟨stricter, rfl, by simp⟩
  | q :: right, stricter => by
    rw [namedLoop]
    cases hrole : paramForRole left q.role with
    | none =>
      have hnarrows : ¬ NamedNarrows names reaches left q := fun ⟨p, hp, _⟩ =>
        nomatch hp.symm.trans hrole
      by_cases hopen : q.isOpen names = true
      · have hfits : NamedFits names reaches left q := by
          rwa [NamedFits, hrole]
        obtain ⟨b, hb, hiff⟩ := namedLoop_spec names h left right stricter
        refine ⟨b, by simpa only [hopen, if_true] using hb, hiff.trans ?_⟩
        simp [hfits, hnarrows]
      have hfits : ¬ NamedFits names reaches left q := by
        rwa [NamedFits, hrole]
      refine ⟨false, by simp only [hopen, Bool.false_eq_true, if_false], ?_⟩
      simp [hfits]
    | some p =>
      have hfits : NamedFits names reaches left q ↔
          (parameterMode names p = some .required ∧ parameterMode names q = some .optional ∨
            parameterMode names p = parameterMode names q) ∧
            Implies names reaches p.restriction q.restriction := by rw [NamedFits, hrole]
      have hnarrows : NamedNarrows names reaches left q ↔
          (parameterMode names p = some .required ∧ parameterMode names q = some .optional ∨
            ¬ Implies names reaches q.restriction p.restriction) :=
        ⟨fun ⟨p', hp', hn⟩ => Option.some.inj (hp'.symm.trans hrole) ▸ hn, fun hn => ⟨p, hrole, hn⟩⟩
      dsimp only
      by_cases hmodes : parameterMode names p = some .required ∧
          parameterMode names q = some .optional ∨ parameterMode names p = parameterMode names q
      · rw [if_neg (by simpa [Prod.ext_iff, not_and, ← imp_iff_not_or, or_iff_not_imp_left] using
          hmodes)]
        by_cases himplies : Implies names reaches p.restriction q.restriction
        · obtain ⟨narrower, hcompare, hnarrower⟩ := compareRestrictions_of_implies h himplies
          rw [hcompare]
          obtain ⟨b, hb, hiff⟩ := namedLoop_spec names h left right (stricter ||
            decide ((parameterMode names p, parameterMode names q) =
              (some .required, some .optional)) || narrower)
          refine ⟨b, hb, hiff.trans ?_⟩
          simp only [forall_mem_cons, exists_mem_cons_iff, hfits, hnarrows, hmodes,
            himplies, true_and, Bool.or_eq_true, decide_eq_true_eq, Prod.mk.injEq, hnarrower,
            or_assoc]
        · rw [compareRestrictions_of_not_implies h himplies]
          refine ⟨false, rfl, ?_⟩
          simp [hfits, himplies]
      · rw [if_pos (by simpa [Prod.ext_iff, not_or] using hmodes)]
        refine ⟨false, rfl, ?_⟩
        simp [hfits, hmodes]

/-- **`named_method_more_specific`**, where the searches answer. -/
theorem namedMethodMoreSpecific_spec (names : DispatchNames) (h : ReachAnswers reaches)
    (left right : ApplicableMethod) :
    ∃ b, namedMethodMoreSpecific names reaches left right = .ok b ∧
      (b = true ↔ (∀ q ∈ right.params, NamedFits names reaches left.params q) ∧
        ((∃ p ∈ left.params, paramForRole right.params p.role = none ∧ p.isOpen names = false) ∨
          ∃ q ∈ right.params, NamedNarrows names reaches left.params q)) := by
  obtain ⟨b, hb, hiff⟩ := namedLoop_spec names h left.params right.params
    (left.params.any fun param =>
      (paramForRole right.params param.role).isNone && !param.isOpen names)
  refine ⟨b, hb, hiff.trans ?_⟩
  simp

/-- A right parameter at a position that the left parameters are at least as strict about. -/
def PositionFits (names : DispatchNames) (reaches : Value → Value → Except KernelError Bool)
    (left : List Param) (leftLayout rightLayout : ParameterLayout) (position : ℕ) (q : Param) :
    Prop :=
  match left[position]? with
  | none => leftLayout.rest = true → q.restriction = unrestrictedMarker names
  | some p =>
    if leftLayout.fixed ≤ position ∧ position < rightLayout.fixed then
      q.restriction = unrestrictedMarker names
    else Implies names reaches p.restriction q.restriction

/-- A right parameter at a position that the left parameters are stricter about. -/
def PositionNarrows (names : DispatchNames) (reaches : Value → Value → Except KernelError Bool)
    (left : List Param) (leftLayout rightLayout : ParameterLayout) (position : ℕ) (q : Param) :
    Prop :=
  ¬ (leftLayout.fixed ≤ position ∧ position < rightLayout.fixed) ∧
    ∃ p, left[position]? = some p ∧ ¬ Implies names reaches q.restriction p.restriction

theorem forall_getElem?_cons {α : Type} {P : ℕ → α → Prop} {a : α} {l : List α} {n : ℕ} :
    (∀ i b, (a :: l)[i]? = some b → P (n + i) b) ↔
      P n a ∧ ∀ i b, l[i]? = some b → P (n + 1 + i) b := by
  constructor
  · refine fun h => ⟨h 0 a rfl, fun i b hb => ?_⟩
    rw [Nat.add_assoc, Nat.add_comm 1 i]
    exact h (i + 1) b hb
  rintro ⟨ha, h⟩ i b hb
  cases i with
  | zero =>
    obtain rfl : a = b := by simpa using hb
    exact ha
  | succ i =>
    rw [Nat.add_comm i 1, ← Nat.add_assoc]
    exact h i b hb

theorem exists_getElem?_cons {α : Type} {P : ℕ → α → Prop} {a : α} {l : List α} {n : ℕ} :
    (∃ i b, (a :: l)[i]? = some b ∧ P (n + i) b) ↔
      P n a ∨ ∃ i b, l[i]? = some b ∧ P (n + 1 + i) b := by
  have hnot := (forall_getElem?_cons (P := fun i b => ¬ P i b) (a := a) (l := l) (n := n)).not
  simpa only [not_forall, not_and_or, not_not, exists_prop] using hnot

/-- **The loop over positions.** -/
theorem positionalLoop_spec (names : DispatchNames) (h : ReachAnswers reaches) (left : List Param)
    (leftLayout rightLayout : ParameterLayout) : ∀ (right : List Param) (position : ℕ)
      (stricter : Bool), ∃ b,
        positionalLoop names reaches left leftLayout rightLayout position right stricter = .ok b ∧
          (b = true ↔
            (∀ i q, right[i]? = some q → PositionFits names reaches left leftLayout rightLayout
              (position + i) q) ∧
            (stricter = true ∨ ∃ i q, right[i]? = some q ∧
              PositionNarrows names reaches left leftLayout rightLayout (position + i) q))
  | [], position, stricter => ⟨stricter, rfl, by simp⟩
  | q :: right, position, stricter => by
    rw [positionalLoop]
    simp only [forall_getElem?_cons, exists_getElem?_cons]
    -- the loop ends here, or goes on with the rest
    have hstop : ¬ PositionFits names reaches left leftLayout rightLayout position q →
        ∃ b, (Except.ok false : Except KernelError Bool) = .ok b ∧ (b = true ↔
          (PositionFits names reaches left leftLayout rightLayout position q ∧
            ∀ i r, right[i]? = some r → PositionFits names reaches left leftLayout rightLayout
              (position + 1 + i) r) ∧
          (stricter = true ∨ PositionNarrows names reaches left leftLayout rightLayout position q ∨
            ∃ i r, right[i]? = some r ∧ PositionNarrows names reaches left leftLayout rightLayout
              (position + 1 + i) r)) := fun hnot => ⟨false, rfl, by simp [hnot]⟩
    have hgo : PositionFits names reaches left leftLayout rightLayout position q →
        ∀ narrower : Bool, (narrower = true ↔
          PositionNarrows names reaches left leftLayout rightLayout position q) →
        ∃ b, positionalLoop names reaches left leftLayout rightLayout (position + 1) right
            (stricter || narrower) = .ok b ∧ (b = true ↔
          (PositionFits names reaches left leftLayout rightLayout position q ∧
            ∀ i r, right[i]? = some r → PositionFits names reaches left leftLayout rightLayout
              (position + 1 + i) r) ∧
          (stricter = true ∨ PositionNarrows names reaches left leftLayout rightLayout position q ∨
            ∃ i r, right[i]? = some r ∧ PositionNarrows names reaches left leftLayout rightLayout
              (position + 1 + i) r)) := by
      intro hfits narrower hnarrower
      obtain ⟨b, hb, hiff⟩ := positionalLoop_spec names h left leftLayout rightLayout right
        (position + 1) (stricter || narrower)
      refine ⟨b, hb, hiff.trans ?_⟩
      simp only [hfits, true_and, Bool.or_eq_true, hnarrower, or_assoc]
    cases hget : left[position]? with
    | none =>
      have hnarrows : ¬ PositionNarrows names reaches left leftLayout rightLayout position q :=
        fun ⟨_, p, hp, _⟩ => nomatch hp.symm.trans hget
      have hfits : PositionFits names reaches left leftLayout rightLayout position q ↔
          (leftLayout.rest = true → q.restriction = unrestrictedMarker names) := by
        rw [PositionFits, hget]
      dsimp only
      split
      · next hbad => exact hstop fun hf => hbad.2 (hfits.mp hf hbad.1)
      · next hok =>
        have hgo := hgo (hfits.mpr fun hrest => not_not.mp fun hne => hok ⟨hrest, hne⟩) false
          (iff_of_false Bool.false_ne_true hnarrows)
        rwa [Bool.or_false] at hgo
    | some p =>
      dsimp only
      by_cases hskip : leftLayout.fixed ≤ position ∧ position < rightLayout.fixed
      · have hnarrows : ¬ PositionNarrows names reaches left leftLayout rightLayout position q :=
          fun hn => hn.1 hskip
        have hfits : PositionFits names reaches left leftLayout rightLayout position q ↔
            q.restriction = unrestrictedMarker names := by
          rw [PositionFits, hget]
          exact iff_of_eq (if_pos hskip)
        rw [if_pos hskip]
        split
        · next hbad => exact hstop (mt hfits.mp hbad)
        · next hok =>
          have hgo := hgo (hfits.mpr (not_not.mp hok)) false
            (iff_of_false Bool.false_ne_true hnarrows)
          rwa [Bool.or_false] at hgo
      · have hnarrows : PositionNarrows names reaches left leftLayout rightLayout position q ↔
            ¬ Implies names reaches q.restriction p.restriction :=
          ⟨fun ⟨_, p', hp', hn⟩ => Option.some.inj (hp'.symm.trans hget) ▸ hn,
            fun hn => ⟨hskip, p, hget, hn⟩⟩
        have hfits : PositionFits names reaches left leftLayout rightLayout position q ↔
            Implies names reaches p.restriction q.restriction := by
          rw [PositionFits, hget]
          exact iff_of_eq (if_neg hskip)
        rw [if_neg hskip]
        by_cases himplies : Implies names reaches p.restriction q.restriction
        · obtain ⟨narrower, hcompare, hnarrower⟩ := compareRestrictions_of_implies h himplies
          rw [hcompare]
          exact hgo (hfits.mpr himplies) narrower (hnarrower.trans hnarrows.symm)
        · rw [compareRestrictions_of_not_implies h himplies]
          exact hstop (mt hfits.mp himplies)

/-- The shape of declared parameters; positions without one are unrestricted. -/
def shapeOf (names : DispatchNames) (params : List Param) : Option (Shape Value) :=
  (orderedLayout names params).map fun found =>
    { required := found.2.required
      fixed := found.2.fixed
      rest := found.2.rest
      restriction := fun i =>
        (found.1[i]?.map Param.restriction).getD (unrestrictedMarker names) }

theorem length_of_orderedLayout {params ordered : List Param} {layout : ParameterLayout}
    (h : orderedLayout names params = some (ordered, layout)) :
    ordered.length = layout.fixed + layout.rest.toNat := by
  obtain ⟨ps, -, hps⟩ := Option.bind_eq_some_iff.mp h
  obtain ⟨found, hlayout, heq⟩ := Option.map_eq_some_iff.mp hps
  obtain ⟨rfl, rfl⟩ := Prod.mk.inj heq
  obtain ⟨R, O, T, rfl, hlaid, rfl⟩ := parameterLayout_iff.mp hlayout
  have hle := hlaid.rest_le
  cases T with
  | nil => simp
  | cons p T =>
    obtain rfl : T = [] := length_eq_zero_iff.mp (by simpa using hle)
    simp
    omega

section Positions

variable {left right : List Param} {leftLayout rightLayout : ParameterLayout}
  {l r : Shape Value}

/-- A layout and its shape. -/
structure ShapedBy (names : DispatchNames) (params : List Param) (layout : ParameterLayout)
    (s : Shape Value) : Prop where
  required : s.required = layout.required
  fixed : s.fixed = layout.fixed
  rest : s.rest = layout.rest
  length : s.length = params.length
  restriction : ∀ i p, params[i]? = some p → s.restriction i = p.restriction

theorem shapeOf_eq_some {params : List Param} {s : Shape Value}
    (h : shapeOf names params = some s) :
    ∃ ordered layout, orderedLayout names params = some (ordered, layout) ∧
      ShapedBy names ordered layout s := by
  obtain ⟨⟨ordered, layout⟩, hlayout, rfl⟩ := Option.map_eq_some_iff.mp h
  refine ⟨ordered, layout, hlayout, rfl, rfl, rfl, (length_of_orderedLayout hlayout).symm, ?_⟩
  intro i p hp
  change ((ordered[i]?.map Param.restriction).getD _) = _
  rw [hp]
  rfl

theorem shaped_of_orderedLayout {params ordered : List Param} {layout : ParameterLayout}
    (h : orderedLayout names params = some (ordered, layout)) :
    ∃ s, shapeOf names params = some s ∧ ShapedBy names ordered layout s := by
  obtain ⟨s, hs⟩ : ∃ s, shapeOf names params = some s := by
    rw [shapeOf, h]
    exact ⟨_, rfl⟩
  obtain ⟨ordered', layout', hlayout, hshaped⟩ := shapeOf_eq_some hs
  obtain ⟨rfl, rfl⟩ := Prod.mk.inj (Option.some.inj (h.symm.trans hlayout))
  exact ⟨s, hs, hshaped⟩

theorem positionFits_iff (hl : ShapedBy names left leftLayout l)
    (hr : ShapedBy names right rightLayout r) {i : ℕ} {q : Param} (hq : right[i]? = some q) :
    PositionFits names reaches left leftLayout rightLayout i q ↔
      (Shape.Compared l r i →
        Implies names reaches (l.restriction i) (r.restriction i)) ∧
      (¬ Shape.Compared l r i → l.rest = true →
        r.restriction i = unrestrictedMarker names) := by
  rw [hr.restriction i q hq, PositionFits]
  cases hget : left[i]? with
  | none =>
    have hnot : ¬ Shape.Compared l r i := fun h =>
      absurd h.1 (by rw [hl.length, not_lt]; exact List.getElem?_eq_none_iff.mp hget)
    simp [hnot, hl.rest]
  | some p =>
    have hlt : i < l.length := hl.length ▸ (List.getElem?_eq_some_iff.mp hget).1
    have hcompared : Shape.Compared l r i ↔ ¬ (leftLayout.fixed ≤ i ∧ i < rightLayout.fixed) := by
      rw [Shape.Compared, hl.fixed, hr.fixed, and_iff_right hlt]
    rw [hl.restriction i p hget]
    dsimp only
    by_cases hskip : leftLayout.fixed ≤ i ∧ i < rightLayout.fixed
    · have hrest := (Shape.rest_of_lt hlt (hl.fixed ▸ hskip.1)).1
      rw [if_pos hskip]
      simp [hcompared, hskip, hrest]
    · rw [if_neg hskip]
      simp [hcompared, hskip]

theorem positionNarrows_iff (hl : ShapedBy names left leftLayout l)
    (hr : ShapedBy names right rightLayout r) {i : ℕ} {q : Param} (hq : right[i]? = some q) :
    PositionNarrows names reaches left leftLayout rightLayout i q ↔
      Shape.Compared l r i ∧ ¬ Implies names reaches (r.restriction i) (l.restriction i) := by
  rw [hr.restriction i q hq, PositionNarrows, Shape.Compared, hl.fixed, hr.fixed, hl.length]
  constructor
  · rintro ⟨hskip, p, hget, hnot⟩
    exact ⟨⟨(List.getElem?_eq_some_iff.mp hget).1, hskip⟩, hl.restriction i p hget ▸ hnot⟩
  · rintro ⟨⟨hlt, hskip⟩, hnot⟩
    obtain ⟨p, hget⟩ : ∃ p, left[i]? = some p := ⟨_, getElem?_eq_getElem hlt⟩
    exact ⟨hskip, p, hget, hl.restriction i p hget ▸ hnot⟩

/-- Positions of a list and positions below a length. -/
theorem forall_lt_length_iff (hr : ShapedBy names right rightLayout r) {P : ℕ → Prop} :
    (∀ i q, right[i]? = some q → P i) ↔ ∀ i < r.length, P i := by
  rw [hr.length]
  exact ⟨fun h i hi => h i _ (getElem?_eq_getElem hi),
    fun h i q hq => h i (List.getElem?_eq_some_iff.mp hq).1⟩

end Positions

/-- **`positional_method_more_specific`** compares shapes, where the searches answer. -/
theorem positionalMethodMoreSpecific_spec (names : DispatchNames) (h : ReachAnswers reaches)
    (left right : ApplicableMethod) :
    ∃ b, positionalMethodMoreSpecific names reaches left right = .ok b ∧
      (b = true ↔ ∃ l, shapeOf names left.params = some l ∧
        ∃ r, shapeOf names right.params = some r ∧
          Shape.MoreSpecific (Implies names reaches) (unrestrictedMarker names) l r) := by
  unfold positionalMethodMoreSpecific
  rcases hl : orderedLayout names left.params with _ | foundLeft
  · exact ⟨false, rfl, by simp [shapeOf, hl]⟩
  rcases hr : orderedLayout names right.params with _ | foundRight
  · exact ⟨false, rfl, by simp [shapeOf, hr]⟩
  obtain ⟨leftParams, leftLayout⟩ := foundLeft
  obtain ⟨rightParams, rightLayout⟩ := foundRight
  obtain ⟨l, hl, hleft⟩ := shaped_of_orderedLayout hl
  obtain ⟨r, hr, hright⟩ := shaped_of_orderedLayout hr
  have htail : rightLayout.rest = true →
      ((rightParams[rightLayout.fixed]?.map Param.restriction) ≠
        some (unrestrictedMarker names) ↔
          r.restriction r.fixed ≠ unrestrictedMarker names) := by
    intro hrest
    obtain ⟨q, hq⟩ : ∃ q, rightParams[rightLayout.fixed]? = some q := by
      refine ⟨_, getElem?_eq_getElem ?_⟩
      rw [← hright.length, Shape.length_of_rest (hright.rest.trans hrest), hright.fixed]
      exact Nat.lt_succ_self _
    rw [hq, hright.fixed, hright.restriction _ q hq, Option.map_some, ne_eq, Option.some.injEq]
  simp only [hl, hr, Option.some.injEq, exists_eq_left']
  split
  · next hbad =>
    refine ⟨false, rfl, iff_of_false Bool.false_ne_true fun hmore => ?_⟩
    have hrequired := hmore.1.required
    have hfixed := hmore.1.fixed
    rw [hright.required, hleft.required] at hrequired
    rw [hright.rest, hleft.rest, hright.fixed, hleft.fixed] at hfixed
    rcases hbad with hlt | ⟨hrest, hbad⟩
    · omega
    · obtain ⟨hrest', hle⟩ := hfixed.resolve_left (by rw [hrest]; exact Bool.false_ne_true)
      rcases hbad with hbad | hbad
      · exact Bool.false_ne_true (hrest'.symm.trans hbad)
      · omega
  next hcounts =>
  split
  · next hbad =>
    refine ⟨false, rfl, iff_of_false Bool.false_ne_true fun hmore => ?_⟩
    obtain ⟨hrest, hne, hbad⟩ := hbad
    obtain ⟨hrest', hfixed⟩ :=
      hmore.1.restTail (hright.rest.trans hrest) ((htail hrest).mp hne)
    rw [hleft.rest] at hrest'
    rw [hleft.fixed, hright.fixed] at hfixed
    rcases hbad with hbad | hbad
    · exact Bool.false_ne_true (hbad.symm.trans hrest')
    · exact hbad hfixed
  next hends =>
  obtain ⟨b, hb, hiff⟩ := positionalLoop_spec names h leftParams leftLayout rightLayout
    rightParams 0 (decide (rightLayout.required < leftLayout.required ∨
      leftLayout.rest = false ∧
        (rightLayout.rest = true ∨ leftLayout.fixed < rightLayout.fixed)))
  have hfits : (∀ i q, rightParams[i]? = some q →
      PositionFits names reaches leftParams leftLayout rightLayout (0 + i) q) ↔
        ∀ i < r.length, (Shape.Compared l r i →
            Implies names reaches (l.restriction i) (r.restriction i)) ∧
          (¬ Shape.Compared l r i → l.rest = true →
            r.restriction i = unrestrictedMarker names) := by
    rw [← forall_lt_length_iff hright]
    refine forall_congr' fun i => forall_congr' fun q => imp_congr_right fun hq => ?_
    rw [Nat.zero_add]
    exact positionFits_iff hleft hright hq
  have hnarrows : (∃ i q, rightParams[i]? = some q ∧
      PositionNarrows names reaches leftParams leftLayout rightLayout (0 + i) q) ↔
        ∃ i < r.length, Shape.Compared l r i ∧
          ¬ Implies names reaches (r.restriction i) (l.restriction i) := by
    rw [hright.length]
    constructor
    · rintro ⟨i, q, hq, hn⟩
      rw [Nat.zero_add, positionNarrows_iff hleft hright hq] at hn
      exact ⟨i, (List.getElem?_eq_some_iff.mp hq).1, hn⟩
    rintro ⟨i, hi, hn⟩
    have hq := getElem?_eq_getElem hi
    refine ⟨i, _, hq, ?_⟩
    rwa [Nat.zero_add, positionNarrows_iff hleft hright hq]
  rw [not_or, not_and, not_or, not_lt, not_lt] at hcounts
  refine ⟨b, hb, hiff.trans (and_congr ?_ ?_)⟩
  · rw [hfits]
    refine ⟨fun hall => ?_, fun hmore i hi => ⟨hmore.compared i hi, hmore.uncompared i hi⟩⟩
    refine ⟨?_, ?_, fun hrest hne => ?_, fun i hi => (hall i hi).1, fun i hi => (hall i hi).2⟩
    · rw [hright.required, hleft.required]
      exact hcounts.1
    · rw [hright.rest, hleft.rest, hright.fixed, hleft.fixed]
      cases hrest : rightLayout.rest with
      | true => exact .inl rfl
      | false => exact .inr ((hcounts.2 hrest).imp_left Bool.eq_false_iff.mpr)
    · have hrest' := hright.rest.symm.trans hrest
      rw [not_and, not_and, not_or, Bool.not_eq_false, not_not] at hends
      rw [hleft.rest, hleft.fixed, hright.fixed]
      exact hends hrest' ((htail hrest').mpr hne)
  · rw [hnarrows, decide_eq_true_iff, Shape.Stricter, hleft.required, hright.required,
      hleft.rest, hright.rest, hleft.fixed, hright.fixed, or_assoc]

/-! ## What is left -/

/-- Checks answer. -/
def Total {α : Type} (check : α → Except KernelError Bool) : Prop := ∀ a, ∃ b, check a = .ok b

variable {more : ApplicableMethod → ApplicableMethod → Except KernelError Bool}

theorem isDominated_spec (hmore : ∀ other, Total (more other)) (candidate : ApplicableMethod) :
    ∀ methods : List ApplicableMethod, ∃ b, isDominated more candidate methods = .ok b ∧
      (b = true ↔ ∃ other ∈ methods,
        candidate.method ≠ other.method ∧ more other candidate = .ok true)
  | [] => ⟨false, rfl, by simp⟩
  | other :: methods => by
    obtain ⟨b, hb, hiff⟩ := isDominated_spec hmore candidate methods
    rw [isDominated]
    by_cases hsame : candidate.method = other.method
    · rw [if_pos hsame]
      exact ⟨b, hb, by simp [hiff, hsame]⟩
    rw [if_neg hsame]
    obtain ⟨c, hc⟩ := hmore other candidate
    cases c with
    | true => exact ⟨true, by rw [hc], by simp [hsame, hc]⟩
    | false => exact ⟨b, by rw [hc]; exact hb, by simp [hiff, hc]⟩

theorem keepUnless_spec (check : ApplicableMethod → Except KernelError Bool)
    (hcheck : Total check) : ∀ candidates : List ApplicableMethod,
    ∃ kept, keepUnless check candidates = .ok kept ∧ kept.Sublist candidates ∧
      ∀ m, m ∈ kept ↔ m ∈ candidates ∧ check m = .ok false
  | [] => ⟨[], rfl, .slnil, by simp⟩
  | candidate :: candidates => by
    obtain ⟨kept, hkept, hsub, hmem⟩ := keepUnless_spec check hcheck candidates
    obtain ⟨b, hb⟩ := hcheck candidate
    cases b with
    | true =>
      refine ⟨kept, by rw [keepUnless, hb]; exact hkept, hsub.cons _, fun m => ?_⟩
      rw [hmem, mem_cons]
      refine and_congr_left fun hm => (or_iff_right fun heq => ?_).symm
      rw [heq, hb] at hm
      cases hm
    | false =>
      refine ⟨candidate :: kept, by rw [keepUnless, hb, hkept]; rfl, hsub.cons_cons _, fun m => ?_⟩
      rw [mem_cons, mem_cons, hmem, or_and_right]
      exact or_congr_left (iff_self_and.mpr fun heq => heq ▸ hb)

/-- Methods with different names. -/
def Distinct (methods : List ApplicableMethod) : Prop :=
  (methods.map ApplicableMethod.method).Nodup

variable {methods : List ApplicableMethod}

theorem Distinct.method_ne (h : Distinct methods)
    {m o : ApplicableMethod} (hm : m ∈ methods) (ho : o ∈ methods) :
    m.method ≠ o.method ↔ o ≠ m :=
  ⟨fun hne heq => hne (heq ▸ rfl), fun hne heq =>
    hne (inj_on_of_nodup_map h ho hm heq.symm)⟩

/-- **Pruning** keeps the methods that no other one is more specific than. -/
theorem pruneMethods_spec (hmore : ∀ other, Total (more other))
    (hdistinct : Distinct methods) : ∃ kept, pruneMethods more methods = .ok kept ∧
      kept.Sublist methods ∧ ∀ m, m ∈ kept ↔ m ∈ methods ∧
        ∀ o ∈ methods, o ≠ m → more o m ≠ .ok true := by
  unfold pruneMethods
  split
  · next hle =>
    refine ⟨methods, rfl, .refl _, fun m => (and_iff_left_of_imp fun hm o ho hne => ?_).symm⟩
    match methods, hle, hm, ho with
    | [x], _, hm, ho =>
      exact absurd ((mem_singleton.mp ho).trans (mem_singleton.mp hm).symm) hne
  obtain ⟨kept, hkept, hsub, hmem⟩ := keepUnless_spec
    (fun candidate => isDominated more candidate methods)
    (fun candidate => (isDominated_spec hmore candidate methods).imp fun _ h => h.1) methods
  refine ⟨kept, hkept, hsub, fun m => (hmem m).trans (and_congr_right fun hm => ?_)⟩
  obtain ⟨b, hb, hiff⟩ := isDominated_spec hmore m methods
  have hfalse : isDominated more m methods = .ok false ↔ ¬ b = true := by
    rw [hb]
    cases b <;> simp
  rw [hfalse, hiff]
  push Not
  refine forall_congr' fun o => imp_congr_right fun ho => ?_
  rw [← hdistinct.method_ne hm ho]

/-- The method passes the check of its parameters. -/
def Applies (check : List Param → Except KernelError Bool) (m : ApplicableMethod) : Prop :=
  check m.params = .ok true

theorem filterCandidates_spec {check : List Param → Except KernelError Bool} (hcheck : Total check)
    (candidates : List ApplicableMethod) : ∃ kept, filterCandidates check candidates = .ok kept ∧
      kept.Sublist candidates ∧ ∀ m, m ∈ kept ↔ m ∈ candidates ∧ Applies check m := by
  have hnot : ∀ m : ApplicableMethod, ∃ b, (check m.params).map (!·) = .ok b ∧
      ((check m.params).map (!·) = .ok false ↔ Applies check m) := by
    intro m
    obtain ⟨b, hb⟩ := hcheck m.params
    refine ⟨!b, by rw [hb]; rfl, ?_⟩
    rw [Applies, hb]
    cases b <;> simp [Except.map]
  obtain ⟨kept, hkept, hsub, hmem⟩ := keepUnless_spec
    (fun m : ApplicableMethod => (check m.params).map (!·))
    (fun m => (hnot m).imp fun _ h => h.1) candidates
  refine ⟨kept, hkept, hsub, fun m => (hmem m).trans (and_congr_right fun _ => ?_)⟩
  obtain ⟨-, -, hiff⟩ := hnot m
  exact hiff

theorem dedupByMethod_of_distinct : ∀ {methods : List ApplicableMethod}, Distinct methods →
    dedupByMethod methods = methods
  | [], _ => by rw [dedupByMethod]
  | [_], _ => by rw [dedupByMethod]
  | first :: second :: methods, h => by
    obtain ⟨hfirst, hrest⟩ := nodup_cons.mp h
    rw [dedupByMethod, if_neg fun heq => hfirst (by simp [heq]), dedupByMethod_of_distinct hrest]

/-- **What a selection returns**: the applicable candidates that no other one is more specific
than. -/
def Selects (check : List Param → Except KernelError Bool)
    (more : ApplicableMethod → ApplicableMethod → Except KernelError Bool)
    (candidates selected : List ApplicableMethod) : Prop :=
  selected.Nodup ∧ ∀ m, m ∈ selected ↔ m ∈ candidates ∧ Applies check m ∧
    ∀ o ∈ candidates, Applies check o → o ≠ m → more o m ≠ .ok true

theorem Distinct.nodup (h : Distinct methods) : methods.Nodup :=
  List.Nodup.of_map _ h

theorem Distinct.sublist {methods' : List ApplicableMethod} (h : Distinct methods)
    (hsub : methods'.Sublist methods) : Distinct methods' :=
  List.Nodup.sublist (hsub.map _) h

/-- Pruning what was filtered. -/
theorem selects_of_prune {check : List Param → Except KernelError Bool}
    {candidates matched selected : List ApplicableMethod} (hdistinct : Distinct methods)
    (hmatched : ∀ m, m ∈ matched ↔ m ∈ candidates ∧ Applies check m)
    (hmethods : ∀ m, m ∈ methods ↔ m ∈ matched) (hsub : selected.Sublist methods)
    (hselected : ∀ m, m ∈ selected ↔ m ∈ methods ∧ ∀ o ∈ methods, o ≠ m → more o m ≠ .ok true) :
    Selects check more candidates selected := by
  refine ⟨hdistinct.nodup.sublist hsub, fun m => ?_⟩
  simp only [hselected, hmethods, hmatched, and_assoc, and_imp]

end Spec

section Select

variable {names : DispatchNames} {reaches : Value → Value → Except KernelError Bool}

theorem allMatch_total {α : Type} {check : α → Except KernelError Bool} (h : Total check) :
    Total (allMatch check)
  | [] => ⟨true, rfl⟩
  | a :: l => by
    obtain ⟨b, hb⟩ := h a
    cases b with
    | true =>
      rw [allMatch, hb]
      exact allMatch_total h l
    | false => exact ⟨false, by rw [allMatch, hb]⟩

theorem paramsMatch_total (names : DispatchNames) (h : ReachAnswers reaches)
    (roles : List (Value × Value)) : Total (paramsMatch names reaches roles) := by
  intro params
  unfold paramsMatch
  split
  · exact ⟨false, rfl⟩
  split
  · exact ⟨false, rfl⟩
  · refine allMatch_total (fun param => ?_) _
    split
    · exact ⟨false, rfl⟩
    · exact matchesRestriction_total h _ _

theorem positionalParamsMatch_total (names : DispatchNames) (h : ReachAnswers reaches)
    (args : List Value) : Total (positionalParamsMatch names reaches args) := by
  intro params
  unfold positionalParamsMatch
  cases orderedParams params with
  | none => exact ⟨false, rfl⟩
  | some ordered =>
  dsimp only
  cases parameterLayout names ordered with
  | none => exact ⟨false, rfl⟩
  | some layout =>
  dsimp only
  split
  · exact ⟨false, rfl⟩
  have hall : Total fun entry : Param × ℕ => matchesRestriction names reaches
      (args[entry.2]?.getD entry.1.defaultValue) entry.1.restriction :=
    fun entry => matchesRestriction_total h _ _
  obtain ⟨b, hb⟩ := allMatch_total hall (ordered.take layout.fixed).zipIdx
  rw [hb]
  cases b with
  | false => exact ⟨false, rfl⟩
  | true =>
    dsimp only
    split
    · split
      · exact matchesRestriction_total h _ _
      · exact ⟨true, rfl⟩
    · exact ⟨true, rfl⟩

theorem selectNamed_spec (h : ReachAnswers reaches) (roles : List (Value × Value))
    {candidates : List ApplicableMethod} (hdistinct : Distinct candidates) :
    ∃ selected, selectNamed names reaches roles candidates = .ok selected ∧
      Selects (paramsMatch names reaches roles) (namedMethodMoreSpecific names reaches) candidates
        selected := by
  obtain ⟨matched, hmatched, hsub, hmem⟩ :=
    filterCandidates_spec (paramsMatch_total names h roles) candidates
  obtain ⟨selected, hselected, hsub', hmem'⟩ := pruneMethods_spec
    (fun other right => (namedMethodMoreSpecific_spec names h other right).imp
      fun _ hb => hb.1) (hdistinct.sublist hsub)
  refine ⟨selected, by rw [selectNamed, hmatched]; exact hselected, ?_⟩
  exact selects_of_prune (hdistinct.sublist hsub) hmem (fun _ => Iff.rfl) hsub' hmem'

theorem selectPositional_spec (h : ReachAnswers reaches) (args : List Value)
    {candidates : List ApplicableMethod} (hdistinct : Distinct candidates) :
    ∃ selected, selectPositional names reaches args candidates = .ok selected ∧
      Selects (positionalParamsMatch names reaches args)
        (positionalMethodMoreSpecific names reaches) candidates selected := by
  obtain ⟨matched, hmatched, hsub, hmem⟩ :=
    filterCandidates_spec (positionalParamsMatch_total names h args) candidates
  have hperm : (sortByMethod matched).Perm matched := perm_insertionSort _ _
  have hsorted : Distinct (sortByMethod matched) :=
    (hperm.map _).nodup_iff.mpr (hdistinct.sublist hsub)
  obtain ⟨selected, hselected, hsub', hmem'⟩ := pruneMethods_spec
    (fun other right => (positionalMethodMoreSpecific_spec names h other right).imp
      fun _ hb => hb.1) hsorted
  refine ⟨selected, ?_, selects_of_prune hsorted hmem (fun _ => hperm.mem_iff) hsub' hmem'⟩
  rw [selectPositional, hmatched]
  change pruneMethods _ (dedupByMethod _) = _
  rw [dedupByMethod_of_distinct hsorted, hselected]

end Select

end Mica
