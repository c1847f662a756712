import Mica.Kernel.DispatchSelection

/-!
# Kernel/DispatchOrder — when selection is well defined

Pruning keeps the methods that no other applicable one is more specific than.  If being more
specific is a strict order on the applicable methods, every other one lies below a method that is
kept, and the order of the candidates does not matter (`WellDefined.of_strictOn`).  It is one exactly
where `restriction_implies` is transitive on the restrictions in use: an identity implies what the
prototype of identities delegates to, but a frob of that identity, which implies it, does not.

* `positional_strictOn`, `named_strictOn` — the comparisons are strict orders, if implication is
  transitive.
* `dispatchSelection_wellDefined_iff` — selection is well defined over a set of restrictions if and
  only if it is.
* `dispatchSelection_empty` — three methods that prune each other.
-/

open Relation SortedList Search List Option

namespace Mica

/-! ## Well-defined selection -/

/-- **Selection is well defined** for the candidates: being more specific is a strict order on those
that apply, and up to order the same methods are selected however the candidates are listed, some if
any applies, undominated ones, with every other applicable method below one of them. -/
structure WellDefined (check : List Param → Except KernelError Bool)
    (more : ApplicableMethod → ApplicableMethod → Except KernelError Bool)
    (select : List ApplicableMethod → Except KernelError (List ApplicableMethod))
    (candidates : List ApplicableMethod) : Prop where
  irrefl : ∀ a ∈ candidates, Applies check a → more a a ≠ .ok true
  trans : ∀ a ∈ candidates, ∀ b ∈ candidates, ∀ c ∈ candidates,
    Applies check a → Applies check b → Applies check c →
      more a b = .ok true → more b c = .ok true → more a c = .ok true
  selects : ∃ selected,
    (∀ listed : List ApplicableMethod, listed.Perm candidates →
      ∃ out, select listed = .ok out ∧ out.Perm selected) ∧
    ((∃ m ∈ candidates, Applies check m) → selected ≠ []) ∧
    (∀ m ∈ selected, m ∈ candidates ∧ Applies check m ∧
      ∀ o ∈ candidates, Applies check o → more o m ≠ .ok true) ∧
    ∀ m ∈ candidates, Applies check m → m ∉ selected → ∃ o ∈ selected, more o m = .ok true

section WellDefined

variable {check : List Param → Except KernelError Bool}
  {more : ApplicableMethod → ApplicableMethod → Except KernelError Bool}
  {select : List ApplicableMethod → Except KernelError (List ApplicableMethod)}
  {candidates members : List ApplicableMethod}

/-- **A strict order makes selection well defined.** -/
theorem WellDefined.of_strictOn
    (hmembers : ∀ m, m ∈ members ↔ m ∈ candidates ∧ Applies check m)
    (hstrict : StrictOn (fun a b => more a b = .ok true) members)
    (hselect : ∀ listed : List ApplicableMethod, listed.Perm candidates →
      ∃ out, select listed = .ok out ∧ Selects check more listed out) :
    WellDefined check more select candidates := by
  have hmem : ∀ m ∈ candidates, Applies check m → m ∈ members := fun m hm happ =>
    (hmembers m).mpr ⟨hm, happ⟩
  obtain ⟨selected, -, hnodup, hselected⟩ := hselect candidates (.refl _)
  -- a member does not dominate itself, so the others are all there are
  have hun : ∀ m, m ∈ selected ↔ m ∈ members ∧
      StrictOn.Undominated (fun a b => more a b = .ok true) members m := by
    intro m
    rw [hselected, ← and_assoc, ← hmembers]
    refine and_congr_right fun hm => ⟨fun h o ho => ?_, fun h o ho happ _ => h o (hmem o ho happ)⟩
    rcases eq_or_ne o m with rfl | hne
    · exact hstrict.irrefl o ho
    · exact h o ((hmembers o).mp ho).1 ((hmembers o).mp ho).2 hne
  have hbelow : ∀ m ∈ candidates, Applies check m → m ∉ selected →
      ∃ o ∈ selected, more o m = .ok true := by
    intro m hm happ hnot
    rcases hstrict.exists_undominated (hmem m hm happ) with hund | ⟨o, ho, hund, hmore⟩
    · exact absurd ((hun m).mpr ⟨hmem m hm happ, hund⟩) hnot
    · exact ⟨o, (hun o).mpr ⟨ho, hund⟩, hmore⟩
  refine ⟨fun a ha happ => hstrict.irrefl a (hmem a ha happ), ?_, selected, ?_, ?_, ?_, hbelow⟩
  · exact fun a ha b hb c hc hab hbb hcc => hstrict.trans a (hmem a ha hab) b (hmem b hb hbb) c
      (hmem c hc hcc)
  · intro listed hperm
    obtain ⟨out, hout, hnodup', hmem'⟩ := hselect listed hperm
    refine ⟨out, hout, (perm_ext_iff_of_nodup hnodup' hnodup).mpr fun m => ?_⟩
    simp only [hmem', hselected, hperm.mem_iff]
  · rintro ⟨m, hm, happ⟩ rfl
    obtain ⟨o, ho, -⟩ := hbelow m hm happ (not_mem_nil)
    exact not_mem_nil ho
  · intro m hm
    obtain ⟨hmm, hund⟩ := (hun m).mp hm
    exact ⟨((hmembers m).mp hmm).1, ((hmembers m).mp hmm).2, fun o ho happ =>
      hund o (hmem o ho happ)⟩

end WellDefined

/-! ## Restrictions in use -/

section Orders

variable {names : DispatchNames} {reaches : Value → Value → Except KernelError Bool}
  {restrictions : Set Value} {candidates : List ApplicableMethod}

/-- `restriction_implies` is transitive on the restrictions. -/
def ImpliesTrans (names : DispatchNames) (reaches : Value → Value → Except KernelError Bool)
    (restrictions : Set Value) : Prop :=
  ∀ x ∈ restrictions, ∀ y ∈ restrictions, ∀ z ∈ restrictions,
    Implies names reaches x y → Implies names reaches y z → Implies names reaches x z

/-- The methods restrict their parameters by the restrictions, or not at all. -/
def Restricted (names : DispatchNames) (restrictions : Set Value)
    (candidates : List ApplicableMethod) : Prop :=
  ∀ m ∈ candidates, ∀ p ∈ m.params,
    p.restriction ∈ insert (unrestrictedMarker names) restrictions

/-- Unrestricted parameters do not break transitivity. -/
theorem ImpliesTrans.ordered (h : ImpliesTrans names reaches restrictions) :
    Shape.Ordered (Implies names reaches) (unrestrictedMarker names)
      (insert (unrestrictedMarker names) restrictions) where
  refl := implies_refl
  implies_top := implies_unrestricted
  eq_top _ := eq_of_unrestricted_implies
  trans x hx y hy z hz hxy hyz := by
    rcases hx with rfl | hx
    · rwa [eq_of_unrestricted_implies hxy] at hyz
    rcases hy with rfl | hy
    · rwa [eq_of_unrestricted_implies hyz]
    rcases hz with rfl | hz
    · exact implies_unrestricted x
    · exact h x hx y hy z hz hxy hyz

theorem uses_of_shapeOf (hrestricted : Restricted names restrictions candidates)
    {m : ApplicableMethod} (hm : m ∈ candidates) {s : Shape Value}
    (hs : shapeOf names m.params = some s) :
    s.Uses (insert (unrestrictedMarker names) restrictions) := by
  obtain ⟨⟨ordered, layout⟩, hlayout, rfl⟩ := map_eq_some_iff.mp hs
  obtain ⟨ps, hps, hpair⟩ := bind_eq_some_iff.mp hlayout
  obtain ⟨_, -, heq⟩ := map_eq_some_iff.mp hpair
  obtain ⟨rfl, -⟩ := Prod.mk.inj heq
  intro i
  change ((ps[i]?.map Param.restriction).getD _) ∈ _
  rcases hget : ps[i]? with _ | p
  · exact .inl rfl
  exact hrestricted m hm p ((perm_of_orderedParams hps).subset (mem_of_getElem? hget))

/-- **The positional comparison is a strict order.** -/
theorem positional_strictOn (h : ReachAnswers reaches)
    (htrans : ImpliesTrans names reaches restrictions)
    {members : List ApplicableMethod} (hrestricted : Restricted names restrictions members) :
    StrictOn (fun a b => positionalMethodMoreSpecific names reaches a b = .ok true) members := by
  have hiff : ∀ a b, positionalMethodMoreSpecific names reaches a b = .ok true ↔
      ∃ l, shapeOf names a.params = some l ∧ ∃ r, shapeOf names b.params = some r ∧
        Shape.MoreSpecific (Implies names reaches) (unrestrictedMarker names) l r := by
    intro a b
    obtain ⟨found, hfound, hiff⟩ := positionalMethodMoreSpecific_spec names h a b
    rw [hfound, ← hiff, Except.ok.injEq]
  constructor
  · intro a _ haa
    obtain ⟨l, hl, r, hr, hmore⟩ := (hiff a a).mp haa
    obtain rfl := some.inj (hl.symm.trans hr)
    exact Shape.not_moreSpecific_self htrans.ordered l hmore
  intro a ha b hb c hc hab hbc
  obtain ⟨l, hl, r, hr, hlr⟩ := (hiff a b).mp hab
  obtain ⟨r', hr', s, hs, hrs⟩ := (hiff b c).mp hbc
  obtain rfl := some.inj (hr.symm.trans hr')
  exact (hiff a c).mpr ⟨l, hl, s, hs, hlr.trans htrans.ordered (uses_of_shapeOf hrestricted ha hl)
    (uses_of_shapeOf hrestricted hb hr) (uses_of_shapeOf hrestricted hc hs) hrs⟩

/-! ## Parameters by role -/

/-- What a parameter asks. -/
def Param.ask (names : DispatchNames) (param : Param) : Option ParameterMode × Value :=
  (parameterMode names param, param.restriction)

/-- What a method asks of a role. -/
def askOf (names : DispatchNames) (params : List Param) (role : Value) :
    Option (Option ParameterMode × Value) := (paramForRole params role).map (Param.ask names)

/-- The left parameters ask for at least as much of every role. -/
def NamedAtLeast (names : DispatchNames) (reaches : Value → Value → Except KernelError Bool)
    (left right : List Param) : Prop :=
  ∀ role, AsksAtLeast (some .required) (some .optional) (Implies names reaches)
    (unrestrictedMarker names) (askOf names left role) (askOf names right role)

/-- **Methods whose parameters can be compared by role**: a method declares a role once, and what is
the rest of one method is not an optional parameter without a restriction in another. -/
structure RolesApart (names : DispatchNames) (compared : ApplicableMethod → Prop) : Prop where
  once : ∀ m, compared m → (m.params.map Param.role).Nodup
  apart : ∀ m o, compared m → compared o → ∀ p ∈ m.params, ∀ q ∈ o.params,
    p.role = q.role → parameterMode names p = some .rest → q.isOpen names = false

theorem Param.isOpen_iff {param : Param} :
    param.isOpen names = true ↔ param.ask names = (some .optional, unrestrictedMarker names) := by
  simp [Param.isOpen, Param.ask]

theorem paramForRole_eq_some {params : List Param} (hroles : (params.map Param.role).Nodup)
    {role : Value} {p : Param} :
    paramForRole params role = some p ↔ p ∈ params ∧ p.role = role := by
  constructor
  · intro h
    exact ⟨mem_of_find?_eq_some h, by simpa using find?_some h⟩
  rintro ⟨hp, rfl⟩
  rcases hfound : paramForRole params p.role with _ | q
  · have hnot := find?_eq_none.mp hfound p hp
    exact absurd (decide_eq_true rfl) hnot
  have hrole : q.role = p.role := by simpa using find?_some hfound
  rw [inj_on_of_nodup_map hroles (mem_of_find?_eq_some hfound) hp hrole]

theorem askOf_of_mem {params : List Param} (hroles : (params.map Param.role).Nodup) {p : Param}
    (hp : p ∈ params) : askOf names params p.role = some (p.ask names) := by
  rw [askOf, (paramForRole_eq_some hroles).mpr ⟨hp, rfl⟩, map_some]

theorem askOf_eq_some {params : List Param} (hroles : (params.map Param.role).Nodup) {role : Value}
    {ask : Option ParameterMode × Value} (h : askOf names params role = some ask) :
    ∃ p ∈ params, p.role = role ∧ p.ask names = ask := by
  obtain ⟨p, hp, hask⟩ := map_eq_some_iff.mp h
  obtain ⟨hmem, hrole⟩ := (paramForRole_eq_some hroles).mp hp
  exact ⟨p, hmem, hrole, hask⟩

theorem namedFits_iff (left : List Param) (q : Param) :
    NamedFits names reaches left q ↔
      AsksAtLeast (some .required) (some .optional) (Implies names reaches)
        (unrestrictedMarker names) (askOf names left q.role) (some (q.ask names)) := by
  rw [NamedFits, askOf]
  cases paramForRole left q.role with
  | none => exact Param.isOpen_iff
  | some p => exact Iff.rfl

theorem namedAtLeast_iff {left right : List Param} (hright : (right.map Param.role).Nodup) :
    NamedAtLeast names reaches left right ↔ ∀ q ∈ right, NamedFits names reaches left q := by
  simp only [namedFits_iff]
  constructor
  · intro h q hq
    have hrole := h q.role
    rwa [askOf_of_mem hright hq] at hrole
  intro h role
  rcases hask : askOf names right role with _ | ask
  · exact trivial
  obtain ⟨q, hmem, rfl, rfl⟩ := askOf_eq_some hright hask
  exact h q hmem

/-- **The named comparison is the strict part of asking for as much.** -/
theorem namedMethodMoreSpecific_iff (h : ReachAnswers reaches) {left right : ApplicableMethod}
    (hleft : (left.params.map Param.role).Nodup) (hright : (right.params.map Param.role).Nodup) :
    namedMethodMoreSpecific names reaches left right = .ok true ↔
      NamedAtLeast names reaches left.params right.params ∧
        ¬ NamedAtLeast names reaches right.params left.params := by
  obtain ⟨found, hfound, hiff⟩ := namedMethodMoreSpecific_spec names h left right
  rw [hfound, Except.ok.injEq, hiff, ← namedAtLeast_iff hright]
  refine and_congr_right fun hle => ?_
  have hback : ∀ role, ¬ AsksAtLeast (some .required) (some .optional) (Implies names reaches)
      (unrestrictedMarker names) (askOf names right.params role)
      (askOf names left.params role) ↔ _ := fun role => (hle role).not_back_iff (by decide)
  rw [NamedAtLeast, not_forall]
  simp only [hback]
  constructor
  · rintro (⟨p, hp, hnone, hopen⟩ | ⟨q, hq, p, hp, hnarrow⟩)
    · refine ⟨p.role, .inl ⟨p.ask names, ?_, ?_, fun heq => ?_⟩⟩
      · exact askOf_of_mem hleft hp
      · rw [askOf, hnone, map_none]
      · exact absurd (Param.isOpen_iff.mpr heq) (by simp [hopen])
    · refine ⟨q.role, .inr ⟨p.ask names, q.ask names, ?_, ?_, hnarrow⟩⟩
      · rw [askOf, hp, map_some]
      · exact askOf_of_mem hright hq
  rintro ⟨role, ⟨_, hp, hnone, hopen⟩ | ⟨_, _, hp, hq, hnarrow⟩⟩
  · obtain ⟨p, hmem, rfl, rfl⟩ := askOf_eq_some hleft hp
    refine .inl ⟨p, hmem, map_eq_none_iff.mp hnone, Bool.eq_false_iff.mpr fun hbad => ?_⟩
    exact hopen (Param.isOpen_iff.mp hbad)
  · obtain ⟨q, hmem, rfl, rfl⟩ := askOf_eq_some hright hq
    obtain ⟨p, hfound, rfl⟩ := map_eq_some_iff.mp hp
    exact .inr ⟨q, hmem, p, hfound, hnarrow⟩

/-- Applicable methods have parameters with modes. -/
theorem exists_mode_of_paramsMatch {roles : List (Value × Value)} {params : List Param}
    (h : paramsMatch names reaches roles params = .ok true) {p : Param} (hp : p ∈ params) :
    ∃ mode, parameterMode names p = some mode := by
  unfold paramsMatch at h
  rcases hordered : orderedParams params with _ | ordered
  · rw [hordered] at h
    cases h
  rcases hlayout : parameterLayout names ordered with _ | layout
  · simp only [hordered, hlayout, Except.ok.injEq, Bool.false_eq_true] at h
  obtain ⟨R, O, T, rfl, hlaid, -⟩ := parameterLayout_iff.mp hlayout
  exact hlaid.exists_mode _ ((perm_of_orderedParams hordered).symm.subset hp)

/-- **The named comparison is a strict order** on the applicable methods. -/
theorem named_strictOn (h : ReachAnswers reaches) (htrans : ImpliesTrans names reaches restrictions)
    {roles : List (Value × Value)} {members : List ApplicableMethod}
    (hrestricted : Restricted names restrictions members) (hapart : RolesApart names (· ∈ members))
    (happlies : ∀ m ∈ members, Applies (paramsMatch names reaches roles) m) :
    StrictOn (fun a b => namedMethodMoreSpecific names reaches a b = .ok true) members := by
  have hiff : ∀ a ∈ members, ∀ b ∈ members,
      (namedMethodMoreSpecific names reaches a b = .ok true ↔
        NamedAtLeast names reaches a.params b.params ∧
          ¬ NamedAtLeast names reaches b.params a.params) := fun a ha b hb =>
    namedMethodMoreSpecific_iff h (hapart.once a ha) (hapart.once b hb)
  have huses : ∀ m ∈ members, ∀ role ask, askOf names m.params role = some ask →
      ask.2 ∈ insert (unrestrictedMarker names) restrictions := by
    intro m hm role ask hask
    obtain ⟨p, hp, -, rfl⟩ := askOf_eq_some (hapart.once m hm) hask
    exact hrestricted m hm p hp
  have hle : ∀ a ∈ members, ∀ b ∈ members, ∀ c ∈ members,
      NamedAtLeast names reaches a.params b.params → NamedAtLeast names reaches b.params c.params →
        NamedAtLeast names reaches a.params c.params := by
    intro a ha b hb c hc hab hbc role
    refine (hab role).trans htrans.ordered (by decide) (huses a ha role) (huses b hb role)
      (huses c hc role) (fun ask hask hopen => ?_) (hbc role)
    obtain ⟨p, hp, hrole, rfl⟩ := askOf_eq_some (hapart.once a ha) hask
    obtain ⟨q, hq, hrole', hask'⟩ := askOf_eq_some (hapart.once c hc) hopen
    obtain ⟨mode, hmode⟩ := exists_mode_of_paramsMatch (happlies a ha) hp
    cases mode with
    | required => exact .inl hmode
    | optional => exact .inr hmode
    | rest =>
      have hnot := hapart.apart a c ha hc p hp q hq (hrole.trans hrole'.symm) hmode
      exact absurd (Param.isOpen_iff.mpr hask') (by simp [hnot])
  refine ⟨fun a ha haa => ?_, fun a ha b hb c hc hab hbc => ?_⟩
  · obtain ⟨hle', hnot⟩ := (hiff a ha a ha).mp haa
    exact hnot hle'
  · obtain ⟨hab, hnot⟩ := (hiff a ha b hb).mp hab
    obtain ⟨hbc, -⟩ := (hiff b hb c hc).mp hbc
    exact (hiff a ha c hc).mpr ⟨hle a ha b hb c hc hab hbc, fun hca =>
      hnot (hle b hb c hc a ha hbc hca)⟩

/-! ## Methods with optional parameters -/

theorem layout_of_optional {params : List Param} (h : LaidOut names [] params []) :
    orderedParams params = some params ∧
      parameterLayout names params = some ⟨0, params.length, false⟩ := by
  have hparams : [] ++ params ++ [] = params := by rw [nil_append, append_nil]
  constructor
  · rw [orderedParams_of_laidOut h (List.Perm.of_eq hparams), hparams]
  · exact parameterLayout_iff.mpr ⟨[], params, [], hparams.symm, h, by simp⟩

theorem allMatch_of_forall {α : Type} {check : α → Except KernelError Bool} :
    ∀ {l : List α}, (∀ a ∈ l, check a = .ok true) → allMatch check l = .ok true
  | [], _ => rfl
  | a :: l, h => by
    rw [allMatch, h a mem_cons_self]
    exact allMatch_of_forall fun b hb => h b (mem_cons_of_mem _ hb)

theorem matchesRestriction_self (restriction : Value) :
    matchesRestriction names reaches restriction restriction = .ok true := by
  unfold matchesRestriction
  rw [if_pos rfl, ite_self]

/-- Without arguments, optional parameters apply whose defaults are their restrictions. -/
theorem applies_of_optional {method : Value} {params : List Param}
    (h : LaidOut names [] params []) (hdefault : ∀ p ∈ params, p.defaultValue = p.restriction) :
    Applies (positionalParamsMatch names reaches []) ⟨method, params⟩ := by
  obtain ⟨hordered, hlayout⟩ := layout_of_optional h
  have hall : allMatch (fun entry : Param × ℕ => matchesRestriction names reaches
      (([] : List Value)[entry.2]?.getD entry.1.defaultValue) entry.1.restriction)
        (params.take params.length).zipIdx = .ok true := by
    refine allMatch_of_forall fun entry hentry => ?_
    rw [take_length] at hentry
    rw [getElem?_nil, getD_none, hdefault _ (fst_mem_of_mem_zipIdx hentry)]
    exact matchesRestriction_self _
  rw [Applies, positionalParamsMatch, hordered]
  dsimp only
  rw [hlayout]
  dsimp only
  rw [if_neg (by simp), hall, getElem?_length]

/-- Fewer optional parameters are more specific, if the first one is. -/
theorem more_of_optional (h : ReachAnswers reaches) {left right : Value} {p q : Param}
    {ps qs : List Param} (hleft : LaidOut names [] (p :: ps) [])
    (hright : LaidOut names [] (q :: qs) []) (hlt : ps.length < qs.length)
    (hopen : ∀ r ∈ qs, r.restriction = unrestrictedMarker names) :
    positionalMethodMoreSpecific names reaches ⟨left, p :: ps⟩ ⟨right, q :: qs⟩ = .ok true ↔
      Implies names reaches p.restriction q.restriction := by
  have hshape : ∀ {params : List Param}, LaidOut names [] params [] →
      shapeOf names params = some ⟨0, params.length, false, fun i =>
        (params[i]?.map Param.restriction).getD (unrestrictedMarker names)⟩ := by
    intro params hlaid
    obtain ⟨hordered, hlayout⟩ := layout_of_optional hlaid
    rw [shapeOf, orderedLayout, hordered, bind_some, hlayout]
    rfl
  obtain ⟨found, hfound, hiff⟩ := positionalMethodMoreSpecific_spec names h
    ⟨left, p :: ps⟩ ⟨right, q :: qs⟩
  rw [hfound, Except.ok.injEq, hiff]
  simp only [hshape hleft, hshape hright, Option.some.injEq, exists_eq_left']
  constructor
  · rintro ⟨hle, -⟩
    exact hle.compared 0 (by simp [Shape.length]) ⟨by simp [Shape.length], by simp⟩
  refine fun himplies => ⟨⟨le_rfl, .inr ⟨rfl, ?_⟩, fun h => Bool.noConfusion h, ?_,
    fun _ _ _ h => Bool.noConfusion h⟩, .inr (.inl ⟨rfl, .inr ?_⟩)⟩
  · simpa using hlt.le
  · intro i hi _
    cases i with
    | zero => exact himplies
    | succ i =>
      have hget : (q :: qs)[i + 1]?.map Param.restriction = some (unrestrictedMarker names) := by
        simp only [Shape.length, length_cons, Bool.toNat_false, Nat.add_zero] at hi
        have hq := getElem?_eq_getElem (Nat.lt_of_succ_lt_succ hi)
        rw [getElem?_cons_succ, hq, map_some, hopen _ (getElem_mem _)]
      change Implies names reaches _ (Option.getD _ _)
      rw [hget]
      exact implies_unrestricted _
  · simpa using hlt

/-- One of the first positions. -/
def Value.position (position : Fin 3) : Value :=
  .int ⟨position, by unfold intMin; omega, by unfold intMax; omega⟩

/-- An optional parameter at one of the first positions, with its restriction as its default. -/
def optionalParam (names : DispatchNames) (position : Fin 3) (restriction : Value) : Param where
  role := .position position
  restriction := restriction
  position := .position position
  mode := .symbol names.optional
  defaultValue := restriction

theorem optionalParam_mode (position : Fin 3) (restriction : Value) :
    parameterMode names (optionalParam names position restriction) = some .optional := by
  have hne : names.optional ≠ names.required := by
    have hnodup := names.nodup
    simp only [nodup_cons, mem_cons, not_or] at hnodup
    exact fun heq => hnodup.2.2.1.1 heq.symm
  have hsymbol : (optionalParam names position restriction).mode.asSymbol = some names.optional :=
    rfl
  rw [parameterMode, hsymbol]
  dsimp only
  rw [if_neg hne, if_pos rfl]

theorem optionalParam_position (position : Fin 3) (restriction : Value) :
    paramPosition (optionalParam names position restriction) = some position.val := by
  have hint : (optionalParam names position restriction).position.asInt = some (position : ℤ) := rfl
  rw [paramPosition, hint]
  dsimp only
  rw [if_pos (by omega), Int.toNat_natCast]

/-- A method with a restricted parameter and up to two that are not, all optional. -/
def probe (names : DispatchNames) (more : Fin 3) (restriction : Value) : ApplicableMethod where
  method := .position more
  params := optionalParam names 0 restriction ::
    [optionalParam names 1 (unrestrictedMarker names),
      optionalParam names 2 (unrestrictedMarker names)].take more

theorem mem_probe_params {more : Fin 3} {restriction : Value} {p : Param}
    (hp : p ∈ (probe names more restriction).params) :
    ∃ position, p = optionalParam names position restriction ∨
      p = optionalParam names position (unrestrictedMarker names) := by
  rcases mem_cons.mp hp with rfl | hp
  · exact ⟨0, .inl rfl⟩
  · rcases mem_cons.mp (mem_of_mem_take hp) with rfl | hp
    · exact ⟨1, .inr rfl⟩
    · exact ⟨2, .inr (mem_singleton.mp hp)⟩

theorem probe_laidOut (more : Fin 3) (restriction : Value) :
    LaidOut names [] (probe names more restriction).params [] where
  positions := by
    match more with
    | 0 => simp [probe, optionalParam_position]
    | 1 => simp [probe, optionalParam_position, range'_succ]
    | 2 => simp [probe, optionalParam_position, range'_succ]
  required_mode _ hp := nomatch hp
  optional_mode p hp := by
    obtain ⟨position, rfl | rfl⟩ := mem_probe_params hp
    · exact optionalParam_mode position restriction
    · exact optionalParam_mode position _
  rest_mode _ hp := nomatch hp
  rest_le := Nat.zero_le 1

theorem probe_applies (more : Fin 3) (restriction : Value) :
    Applies (positionalParamsMatch names reaches []) (probe names more restriction) := by
  refine applies_of_optional (probe_laidOut more restriction) fun p hp => ?_
  obtain ⟨position, rfl | rfl⟩ := mem_probe_params hp
  · rfl
  · rfl

/-- Probes compare by their restrictions. -/
theorem probe_more_iff (h : ReachAnswers reaches) {few many : Fin 3} (hlt : few < many)
    (x y : Value) :
    positionalMethodMoreSpecific names reaches (probe names few x) (probe names many y) =
      .ok true ↔ Implies names reaches x y := by
  refine more_of_optional h (probe_laidOut few x) (probe_laidOut many y) ?_ fun r hr => ?_
  · rw [length_take, length_take]
    change min _ 2 < min _ 2
    omega
  · rcases mem_cons.mp (mem_of_mem_take hr) with rfl | hr
    · rfl
    · rw [mem_singleton.mp hr]
      rfl

/-- **Only transitive implication makes positional selection well defined**: methods with one, two
and three optional parameters, the first of them restricted, compare by its restriction. -/
theorem impliesTrans_of_positional (h : ReachAnswers reaches)
    (hwell : ∀ candidates, Distinct candidates → Restricted names restrictions candidates →
      WellDefined (positionalParamsMatch names reaches [])
        (positionalMethodMoreSpecific names reaches) (selectPositional names reaches [])
        candidates) : ImpliesTrans names reaches restrictions := by
  intro x hx y hy z hz hxy hyz
  have hrestricted : Restricted names restrictions
      [probe names 0 x, probe names 1 y, probe names 2 z] := by
    have hone : ∀ more, ∀ r ∈ restrictions, ∀ p ∈ (probe names more r).params,
        p.restriction ∈ insert (unrestrictedMarker names) restrictions := by
      intro more r hr p hp
      obtain ⟨position, rfl | rfl⟩ := mem_probe_params hp
      · exact .inr hr
      · exact .inl rfl
    simpa [Restricted] using ⟨hone 0 x hx, hone 1 y hy, hone 2 z hz⟩
  have hdistinct : Distinct [probe names 0 x, probe names 1 y, probe names 2 z] := by
    change [Value.position 0, Value.position 1, Value.position 2].Nodup
    decide
  have htrans := (hwell _ hdistinct hrestricted).trans _ (by simp) _ (by simp) _ (by simp)
    (probe_applies 0 x) (probe_applies 1 y) (probe_applies 2 z)
    ((probe_more_iff h (by decide) x y).mpr hxy) ((probe_more_iff h (by decide) y z).mpr hyz)
  exact (probe_more_iff h (by decide) x z).mp htrans

end Orders

/-! ## Selection over a relation -/

/-- The answers of `delegates_reaches` in a relation, with fuel for the search. -/
def reachesWith (n : ℕ) (reader : RelationReader) (delegates : RelationId)
    (child ancestor : Value) : Except KernelError Bool :=
  (delegatesReaches n reader delegates child ancestor).getD (.ok false)

/-- **All calls select well** over a set of restrictions: positional calls, and named calls where the
parameters of the methods that apply can be compared by role. -/
def SelectionWellDefined (names : DispatchNames) (reaches : Value → Value → Except KernelError Bool)
    (restrictions : Set Value) : Prop :=
  ∀ candidates, Distinct candidates → Restricted names restrictions candidates →
    (∀ args, WellDefined (positionalParamsMatch names reaches args)
      (positionalMethodMoreSpecific names reaches) (selectPositional names reaches args)
      candidates) ∧
    ∀ roles,
      RolesApart names (fun m => m ∈ candidates ∧ Applies (paramsMatch names reaches roles) m) →
        WellDefined (paramsMatch names reaches roles) (namedMethodMoreSpecific names reaches)
          (selectNamed names reaches roles) candidates

section Relation

variable {reader : RelationReader} {delegates : RelationId} {rows : SortedSet Tuple}

/-- One fuel is enough for all searches. -/
theorem delegatesReaches_answers (hshows : ShowsEdges reader delegates rows) {n : ℕ}
    (hn : rows.list.length + 1 ≤ n) (child ancestor : Value) :
    ∃ found, delegatesReaches n reader delegates child ancestor = some (.ok found) := by
  have hlooks : looks (prototypes rows.list).toFinset (SortedSet.empty, [child]) ≤ n := by
    have hunseen := Finset.card_filter_le (prototypes rows.list).toFinset
      (· ∉ (SortedSet.empty : SortedSet Value))
    have hdistinct := (prototypes rows.list).toFinset_card_le
    have hrows : (prototypes rows.list).length ≤ rows.list.length := length_filterMap_le _ _
    simp only [looks, length_singleton]
    omega
  obtain ⟨found, hfound, -⟩ := delegatesReachesLoop_spec hshows
    (Marking.init (DelegationEdge (· ∈ rows)) child) (SortedSet.notMem_empty ancestor) hlooks
  exact ⟨found, hfound⟩

/-- **Selection is well defined** over a set of restrictions if and only if `restriction_implies` is
transitive on them. -/
theorem dispatchSelection_wellDefined_iff (names : DispatchNames)
    (hshows : ShowsEdges reader delegates rows) :
    ∃ fuel, ∀ n ≥ fuel,
      (∀ child ancestor, ∃ found,
        delegatesReaches n reader delegates child ancestor = some (.ok found)) ∧
      ∀ restrictions : Set Value,
        SelectionWellDefined names (reachesWith n reader delegates) restrictions ↔
          ImpliesTrans names (reachesWith n reader delegates) restrictions := by
  refine ⟨rows.list.length + 1, fun n hn =>
    ⟨delegatesReaches_answers hshows hn, fun restrictions => ?_⟩⟩
  have hanswers : ReachAnswers (reachesWith n reader delegates) := by
    intro child ancestor
    obtain ⟨found, hfound⟩ := delegatesReaches_answers hshows hn child ancestor
    exact ⟨found, by rw [reachesWith, hfound, getD_some]⟩
  constructor
  · exact fun hwell => impliesTrans_of_positional hanswers fun candidates hdistinct hrestricted =>
      (hwell candidates hdistinct hrestricted).1 []
  intro htrans candidates hdistinct hrestricted
  have hlisted : ∀ {listed : List ApplicableMethod}, listed.Perm candidates → Distinct listed :=
    fun hperm => (hperm.map _).nodup_iff.mpr hdistinct
  refine ⟨fun args => ?_, fun roles hapart => ?_⟩
  · obtain ⟨members, -, hsub, hmembers⟩ := filterCandidates_spec
      (positionalParamsMatch_total names hanswers args) candidates
    exact .of_strictOn hmembers
      (positional_strictOn hanswers htrans fun m hm => hrestricted m (hsub.subset hm))
      fun listed hperm => selectPositional_spec hanswers args (hlisted hperm)
  obtain ⟨members, -, hsub, hmembers⟩ := filterCandidates_spec
    (paramsMatch_total names hanswers roles) candidates
  have hapart' : RolesApart names (· ∈ members) :=
    ⟨fun m hm => hapart.once m ((hmembers m).mp hm), fun m o hm ho =>
      hapart.apart m o ((hmembers m).mp hm) ((hmembers o).mp ho)⟩
  exact .of_strictOn hmembers
    (named_strictOn hanswers htrans (fun m hm => hrestricted m (hsub.subset hm)) hapart'
      fun m hm => ((hmembers m).mp hm).2)
    fun listed hperm => selectNamed_spec hanswers roles (hlisted hperm)

end Relation

/-! ## Methods that prune each other -/

/-- Identities delegate to `true`, booleans to a frob of the second identity, and the first identity
to that frob and to the second identity. -/
def loopedDelegates : RelationState Entries :=
  [[.identity (primitivePrototypeForValue (.identity (.ofByte 1))), .bool true, .bool true],
    [.identity (primitivePrototypeForValue (.bool true)),
      .frob (.ofByte 2) (.bool false), .bool true],
    [.identity (.ofByte 1), .frob (.ofByte 2) (.bool false), .bool true],
    [.identity (.ofByte 1), .identity (.ofByte 2), .bool true]].foldl
    (fun state t => (state.insert t).1)
    ⟨delegatesMetadata (.ofByte 30) ⟨1⟩, TupleStore.empty, [TupleIndex.empty ⟨[0, 2, 1]⟩ 3]⟩

theorem loopedDelegates_reached :
    loopedDelegates.Reached (delegatesMetadata ⟨30, by decide⟩ ⟨1⟩) := by
  have hempty : RelationState.empty (delegatesMetadata ⟨30, by decide⟩ ⟨1⟩) = .ok
      (⟨delegatesMetadata ⟨30, by decide⟩ ⟨1⟩, TupleStore.empty,
        [TupleIndex.empty ⟨[0, 2, 1]⟩ 3]⟩ : RelationState Entries) := rfl
  exact ((((RelationState.reached_empty hempty).insert rfl).insert rfl).insert rfl).insert rfl

theorem loopedDelegates_shows :
    ShowsEdges (extensionalReader fun _ => some loopedDelegates) (.ofByte 30)
      loopedDelegates.rows := by
  intro child
  have hreached := loopedDelegates_reached
  exact extensionalReader_shows rfl hreached.valid
    (hreached.1.symm ▸ delegatesMetadata_faithful _ _) (by rw [hreached.1]; rfl)

theorem dispatchSelection_wellDefined_iff_looped :
    ∃ fuel, ∀ n ≥ fuel,
      (∀ child ancestor, ∃ found, delegatesReaches n
        (extensionalReader fun _ => some loopedDelegates) ⟨30, by decide⟩ child ancestor =
          some (.ok found)) ∧
      ∀ restrictions : Set Value,
        SelectionWellDefined exampleNames (reachesWith n
          (extensionalReader fun _ => some loopedDelegates) ⟨30, by decide⟩) restrictions ↔
            ImpliesTrans exampleNames (reachesWith n
              (extensionalReader fun _ => some loopedDelegates) ⟨30, by decide⟩) restrictions :=
  dispatchSelection_wellDefined_iff exampleNames loopedDelegates_shows

/-- A method with one required parameter. -/
def requiredMethod (method : UInt32) (restriction : Value) : ApplicableMethod where
  method := .symbol ⟨method⟩
  params := [⟨.symbol ⟨5⟩, restriction, .int ⟨0, intMin_le_zero, zero_le_intMax⟩,
    .symbol ⟨2⟩, .bool false⟩]

/-- Methods for the frob of the second identity, for that identity, and for `true`. -/
def loopedMethods : List ApplicableMethod :=
  [requiredMethod 10 (.frob (.ofByte 2) (.bool false)),
    requiredMethod 11 (.identity (.ofByte 2)), requiredMethod 12 (.bool true)]

/-- The answers over the looped edges. -/
abbrev loopedReaches : Value → Value → Except KernelError Bool :=
  reachesWith 5 (extensionalReader fun _ => some loopedDelegates) (.ofByte 30)

/-- The frob implies its delegate, an identity what identities delegate to, and a boolean what
booleans delegate to: each of three applicable methods is more specific than another, and a call
selects none. -/
theorem dispatchSelection_empty :
    (∀ child ancestor, ∃ found, delegatesReaches 5 (extensionalReader fun _ => some loopedDelegates)
      ⟨30, by decide⟩ child ancestor = some (.ok found)) ∧
    Distinct loopedMethods ∧
    (∀ m ∈ loopedMethods, Applies
      (positionalParamsMatch exampleNames loopedReaches [.identity ⟨1, by decide⟩]) m) ∧
    selectPositional exampleNames loopedReaches [.identity ⟨1, by decide⟩] loopedMethods = .ok [] ∧
    ¬ WellDefined (positionalParamsMatch exampleNames loopedReaches [.identity ⟨1, by decide⟩])
      (positionalMethodMoreSpecific exampleNames loopedReaches)
      (selectPositional exampleNames loopedReaches [.identity ⟨1, by decide⟩]) loopedMethods := by
  have hdistinct : Distinct loopedMethods := by
    unfold Distinct
    decide +kernel
  have happlies : ∀ m ∈ loopedMethods, Applies
      (positionalParamsMatch exampleNames loopedReaches [.identity ⟨1, by decide⟩]) m := by
    unfold Applies
    decide +kernel
  have hselect : selectPositional exampleNames loopedReaches [.identity ⟨1, by decide⟩]
      loopedMethods = .ok [] := by decide +kernel
  refine ⟨delegatesReaches_answers loopedDelegates_shows (by decide +kernel), hdistinct, happlies,
    hselect, fun hwell => ?_⟩
  obtain ⟨selected, hlisted, hnonempty, -⟩ := hwell.selects
  obtain ⟨out, hout, hperm⟩ := hlisted loopedMethods (.refl _)
  obtain rfl : [] = out := Except.ok.inj (hselect.symm.trans hout)
  exact hnonempty ⟨_, mem_cons_self, happlies _ mem_cons_self⟩ hperm.nil_eq.symm

end Mica
