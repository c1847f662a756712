import Mathlib.Data.List.Sort
import Mica.Lib.Collect
import Mica.Var.Decode

/-!
# Kernel/DispatchParams — parameters of methods, and arguments for them

`Param` has a row for each parameter of a method: its role, what it restricts values to, its position,
its mode and its default.  A list of parameters is laid out when, sorted by position, it has the
positions from zero on, required parameters before optional ones, and a rest parameter at most at the
end (`LaidOut`).  Positional arguments fill parameters from left to right, then defaults fill in, then
the rest is collected in a list; named arguments are looked up by role.

* `parameterLayout_iff` — what the layout of the code accepts.
* `positionalMethodArgs_iff` — which arguments are accepted, and where each goes.
-/

open List

namespace Mica

/-! ## The code -/

/-- The names that dispatch interns.  A symbol has such a name exactly when it is the interned one. -/
structure DispatchNames where
  unrestricted : Symbol
  frobOnly : Symbol
  required : Symbol
  optional : Symbol
  rest : Symbol
  nodup : [unrestricted, frobOnly, required, optional, rest].Nodup

inductive ParameterMode where
  | required
  | optional
  | rest
  deriving DecidableEq

/-- A row of `Param`, less the method it belongs to. -/
structure Param where
  role : Value
  restriction : Value
  position : Value
  mode : Value
  defaultValue : Value
  deriving DecidableEq

def Value.asInt (v : Value) : Option ℤ :=
  match v.raw with
  | .int i => some i.val
  | _ => none

/-- Whether `list_len` gives a length. -/
def Value.isList (v : Value) : Bool :=
  match v.raw with
  | .list _ => true
  | _ => false

@[simp] theorem Value.isList_list (vs : List Value) : (Value.list vs).isList = true := rfl

section Code

variable (names : DispatchNames)

/-- `parameter_mode`; rows of `Param` have six columns. -/
def parameterMode (param : Param) : Option ParameterMode :=
  match param.mode.asSymbol with
  | none => none
  | some s =>
    if s = names.required then some .required
    else if s = names.optional then some .optional
    else if s = names.rest then some .rest
    else none

/-- `param_position`: a number that a `u16` holds. -/
def paramPosition (param : Param) : Option ℕ :=
  match param.position.asInt with
  | none => none
  | some i => if 0 ≤ i ∧ i < 2 ^ 16 then some i.toNat else none

/-- The key that `ordered_params` sorts by. -/
def positionKey (param : Param) : ℕ := (paramPosition param).getD (2 ^ 16 - 1)

/-- `ordered_params`. -/
def orderedParams (params : List Param) : Option (List Param) :=
  let params := params.insertionSort fun p q => positionKey p ≤ positionKey q
  if params.any fun p => (paramPosition p).isNone then none else some params

/-- The loop of `parameter_layout`: the required parameters so far, whether an optional one was met,
and whether a rest parameter was. -/
def layoutFrom : ℕ → ℕ → Bool → Bool → List Param → Option (ℕ × Bool)
  | _, required, _, rest, [] => some (required, rest)
  | position, required, optional, rest, param :: params =>
    match paramPosition param with
    | none => none
    | some p =>
      if p ≠ position ∨ rest = true then none
      else
        match parameterMode names param with
        | none => none
        | some .required =>
          if optional = true then none
          else layoutFrom (position + 1) (required + 1) optional rest params
        | some .optional => layoutFrom (position + 1) required true rest params
        | some .rest => layoutFrom (position + 1) required optional true params

/-- What `parameter_layout` returns: the required parameters, those before the rest, and whether
there is a rest. -/
structure ParameterLayout where
  required : ℕ
  fixed : ℕ
  rest : Bool
  deriving DecidableEq

/-- `parameter_layout`. -/
def parameterLayout (params : List Param) : Option ParameterLayout :=
  (layoutFrom names 0 0 false false params).map fun found =>
    ⟨found.1, params.length - found.2.toNat, found.2⟩

structure PositionalArgumentBinding where
  required : ℕ
  defaults : List Value
  rest : Bool
  deriving DecidableEq

/-- `positional_binding`: nothing to fill in for parameters that are all required. -/
def positionalBinding (params : List Param) : Option (Option PositionalArgumentBinding) :=
  (parameterLayout names params).map fun layout =>
    if layout.required = layout.fixed ∧ layout.rest = false then none
    else some
      { required := layout.required
        defaults := ((params.take layout.fixed).drop layout.required).map Param.defaultValue
        rest := layout.rest }

/-- `bind_arguments`, for as many arguments as the method was found with. -/
def bindArguments : Option PositionalArgumentBinding → List Value → List Value
  | none, args => args
  | some binding, args =>
    let fixed := binding.required + binding.defaults.length
    let rest := if binding.rest = true ∧ fixed < args.length then args.drop fixed else []
    let args := if binding.rest = true ∧ fixed < args.length then args.take fixed else args
    let args :=
      if args.length < fixed then args ++ binding.defaults.drop (args.length - binding.required)
      else args
    if binding.rest = true then args ++ [Value.list rest] else args

/-- `positional_method_args`. -/
def positionalMethodArgs (params : List Param) (args : List Value) :
    Option (List (Value × Value)) :=
  (orderedParams params).bind fun params =>
    (parameterLayout names params).bind fun layout =>
      if args.length < layout.required ∨ (layout.rest = false ∧ layout.fixed < args.length) then none
      else
        (positionalBinding names params).map fun binding =>
          (params.map Param.role).zip (bindArguments binding args)

/-- `role_value`. -/
def roleValue (roles : List (Value × Value)) (role : Value) : Option Value :=
  (roles.find? fun entry => entry.1 = role).map Prod.snd

/-- One parameter of `method_call_args_from_params`. -/
def namedArgument (roles : List (Value × Value)) (param : Param) : Option Value :=
  match parameterMode names param, roleValue roles param.role with
  | some .required, value => value
  | some .optional, value => some (value.getD param.defaultValue)
  | some .rest, some value => if value.isList = true then some value else none
  | some .rest, none => some (Value.list [])
  | none, _ => none

/-- `method_call_args_from_params`, which is also `named_method_args`. -/
def methodCallArgsFromParams (params : List Param) (roles : List (Value × Value)) :
    Option (List Value) :=
  (orderedParams params).bind fun params =>
    (parameterLayout names params).bind fun _ => params.mapM (namedArgument names roles)

end Code

/-! ## Layouts -/

/-- **Parameters in order**, positions counted from a start: required parameters come first, then
optional ones, then a rest parameter if there is one. -/
structure LaidOutFrom (names : DispatchNames) (position : ℕ) (required optional rest : List Param) :
    Prop where
  positions : (required ++ optional ++ rest).map paramPosition =
    (List.range' position (required ++ optional ++ rest).length).map some
  required_mode : ∀ p ∈ required, parameterMode names p = some .required
  optional_mode : ∀ p ∈ optional, parameterMode names p = some .optional
  rest_mode : ∀ p ∈ rest, parameterMode names p = some .rest
  rest_le : rest.length ≤ 1

/-- **Parameters in order**: the positions count from zero. -/
abbrev LaidOut (names : DispatchNames) (required optional rest : List Param) : Prop :=
  LaidOutFrom names 0 required optional rest

section Layout

variable {names : DispatchNames} {position : ℕ} {param : Param} {required optional rest : List Param}

theorem map_some_range'_cons {l : List (Option ℕ)} {o : Option ℕ} {n : ℕ} :
    o :: l = (List.range' position (n + 1)).map some ↔
      o = some position ∧ l = (List.range' (position + 1) n).map some := by
  rw [range'_succ, map_cons, List.cons.injEq]

theorem LaidOutFrom.cons_required (h : LaidOutFrom names (position + 1) required optional rest)
    (hposition : paramPosition param = some position)
    (hmode : parameterMode names param = some .required) :
    LaidOutFrom names position (param :: required) optional rest where
  positions := map_some_range'_cons.mpr ⟨hposition, h.positions⟩
  required_mode := forall_mem_cons.mpr ⟨hmode, h.required_mode⟩
  optional_mode := h.optional_mode
  rest_mode := h.rest_mode
  rest_le := h.rest_le

theorem LaidOutFrom.cons_optional (h : LaidOutFrom names (position + 1) [] optional rest)
    (hposition : paramPosition param = some position)
    (hmode : parameterMode names param = some .optional) :
    LaidOutFrom names position [] (param :: optional) rest where
  positions := map_some_range'_cons.mpr ⟨hposition, h.positions⟩
  required_mode := h.required_mode
  optional_mode := forall_mem_cons.mpr ⟨hmode, h.optional_mode⟩
  rest_mode := h.rest_mode
  rest_le := h.rest_le

theorem laidOutFrom_rest (hposition : paramPosition param = some position)
    (hmode : parameterMode names param = some .rest) :
    LaidOutFrom names position [] [] [param] where
  positions := map_some_range'_cons.mpr ⟨hposition, rfl⟩
  required_mode := nofun
  optional_mode := nofun
  rest_mode := fun _ hp => mem_singleton.mp hp ▸ hmode
  rest_le := le_rfl

theorem laidOutFrom_nil (names : DispatchNames) (position : ℕ) :
    LaidOutFrom names position [] [] [] where
  positions := rfl
  required_mode := nofun
  optional_mode := nofun
  rest_mode := nofun
  rest_le := Nat.zero_le 1

/-- The loop accepts what continues a layout. -/
theorem layoutFrom_sound : ∀ {params : List Param} {position count : ℕ} {optional rest : Bool}
    {found : ℕ × Bool}, layoutFrom names position count optional rest params = some found →
      ∃ required optionals rests, params = required ++ optionals ++ rests ∧
        LaidOutFrom names position required optionals rests ∧
        (optional = true → required = []) ∧ (rest = true → params = []) ∧
        found = (count + required.length, rest || !rests.isEmpty)
  | [], position, count, optional, rest, found, h => by
    rw [layoutFrom, Option.some.injEq] at h
    exact ⟨[], [], [], rfl, laidOutFrom_nil names position, fun _ => rfl, fun _ => rfl, by simp [h]⟩
  | param :: params, position, count, optional, rest, found, h => by
    rw [layoutFrom] at h
    split at h
    · cases h
    rename_i p hp
    by_cases hbad : p ≠ position ∨ rest = true
    · rw [if_pos hbad] at h
      cases h
    rw [if_neg hbad] at h
    obtain ⟨rfl, hrest⟩ := not_or.mp hbad |>.imp not_not.mp id
    obtain rfl : rest = false := Bool.eq_false_iff.mpr hrest
    split at h
    · cases h
    · next hmode =>
      split_ifs at h with hoptional
      obtain ⟨R, O, T, rfl, hlaid, -, -, rfl⟩ := layoutFrom_sound h
      refine ⟨param :: R, O, T, rfl, hlaid.cons_required hp hmode, fun ho => absurd ho hoptional,
        nofun, ?_⟩
      rw [length_cons]
      congr 1
      omega
    · next hmode =>
      obtain ⟨R, O, T, rfl, hlaid, hnone, -, rfl⟩ := layoutFrom_sound h
      obtain rfl := hnone rfl
      exact ⟨[], param :: O, T, rfl, hlaid.cons_optional hp hmode, fun _ => rfl,
        nofun, rfl⟩
    · next hmode =>
      obtain ⟨R, O, T, hparams, hlaid, -, hempty, rfl⟩ := layoutFrom_sound h
      obtain rfl := hempty rfl
      obtain ⟨hRO, rfl⟩ := append_eq_nil_iff.mp hparams.symm
      obtain ⟨rfl, rfl⟩ := append_eq_nil_iff.mp hRO
      exact ⟨[], [], [param], rfl, laidOutFrom_rest hp hmode, fun _ => rfl,
        nofun, rfl⟩

/-- A layout goes through the loop. -/
theorem layoutFrom_complete : ∀ {required optionals rests : List Param} {position count : ℕ}
    {optional : Bool}, LaidOutFrom names position required optionals rests →
      (optional = true → required = []) →
        layoutFrom names position count optional false (required ++ optionals ++ rests) =
          some (count + required.length, !rests.isEmpty)
  | param :: R, O, T, position, count, optional, h, hreq => by
    obtain ⟨hposition, hrest⟩ := map_some_range'_cons.mp h.positions
    obtain ⟨hmode, hmodes⟩ := forall_mem_cons.mp h.required_mode
    have htail : LaidOutFrom names (position + 1) R O T :=
      ⟨hrest, hmodes, h.optional_mode, h.rest_mode, h.rest_le⟩
    obtain rfl : optional = false :=
      Bool.eq_false_iff.mpr fun ho => cons_ne_nil _ _ (hreq ho)
    rw [cons_append, cons_append, layoutFrom, hposition]
    simp only [ne_eq, not_true, false_or, Bool.false_eq_true, if_false, hmode]
    rw [layoutFrom_complete htail fun ho : false = true => (nomatch ho), length_cons]
    congr 2
    omega
  | [], param :: O, T, position, count, optional, h, _ => by
    obtain ⟨hposition, hrest⟩ := map_some_range'_cons.mp h.positions
    obtain ⟨hmode, hmodes⟩ := forall_mem_cons.mp h.optional_mode
    have htail : LaidOutFrom names (position + 1) [] O T :=
      ⟨hrest, h.required_mode, hmodes, h.rest_mode, h.rest_le⟩
    have hnext : layoutFrom names (position + 1) count true false ([] ++ O ++ T) =
        some (count + 0, !T.isEmpty) := layoutFrom_complete htail fun _ => rfl
    rw [nil_append, cons_append, layoutFrom, hposition]
    simp only [ne_eq, not_true, false_or, Bool.false_eq_true, if_false, hmode]
    exact hnext
  | [], [], [], position, count, optional, h, _ => rfl
  | [], [], [param], position, count, optional, h, _ => by
    obtain ⟨hposition, -⟩ := map_some_range'_cons.mp h.positions
    have hmode := h.rest_mode param mem_cons_self
    rw [nil_append, nil_append, layoutFrom, hposition]
    simp only [ne_eq, not_true, false_or, Bool.false_eq_true, if_false, hmode, layoutFrom]
    rfl
  | [], [], _ :: _ :: _, _, _, _, h, _ => by
    have hle := h.rest_le
    simp at hle

/-- **What `parameter_layout` accepts**, and what it counts. -/
theorem parameterLayout_iff {params : List Param} {layout : ParameterLayout} :
    parameterLayout names params = some layout ↔
      ∃ required optional rest, params = required ++ optional ++ rest ∧
        LaidOut names required optional rest ∧
        layout = ⟨required.length, required.length + optional.length, !rest.isEmpty⟩ := by
  have hfixed : ∀ {R O T : List Param}, T.length ≤ 1 →
      (R ++ O ++ T).length - (!T.isEmpty).toNat = R.length + O.length := by
    intro R O T hle
    rcases T with _ | ⟨p, _ | ⟨q, T⟩⟩
    · simp
    · simp
    · simp at hle
  constructor
  · intro h
    obtain ⟨found, hfound, rfl⟩ := Option.map_eq_some_iff.mp h
    obtain ⟨R, O, T, rfl, hlaid, -, -, rfl⟩ := layoutFrom_sound hfound
    refine ⟨R, O, T, rfl, hlaid, ?_⟩
    rw [Nat.zero_add, Bool.false_or, hfixed hlaid.rest_le]
  · rintro ⟨R, O, T, rfl, hlaid, rfl⟩
    rw [parameterLayout, layoutFrom_complete hlaid fun h : false = true => (nomatch h),
      Option.map_some,
      Nat.zero_add, hfixed hlaid.rest_le]

theorem perm_of_orderedParams {params ordered : List Param}
    (h : orderedParams params = some ordered) : ordered.Perm params := by
  unfold orderedParams at h
  dsimp only at h
  split_ifs at h
  obtain rfl := Option.some.inj h
  exact perm_insertionSort _ _

/-- Sorting finds the layout. -/
theorem orderedParams_of_laidOut {params : List Param} (h : LaidOut names required optional rest)
    (hperm : (required ++ optional ++ rest).Perm params) :
    orderedParams params = some (required ++ optional ++ rest) := by
  generalize hordered : required ++ optional ++ rest = ordered at hperm
  have hpositions : ordered.map paramPosition = (List.range' 0 ordered.length).map some :=
    hordered ▸ h.positions
  have hsome : ∀ p ∈ ordered, paramPosition p = some (positionKey p) := by
    intro p hp
    have hmem : paramPosition p ∈ (List.range' 0 ordered.length).map some :=
      hpositions ▸ mem_map_of_mem hp
    obtain ⟨i, -, hi⟩ := mem_map.mp hmem
    rw [positionKey, ← hi, Option.getD_some]
  have hkeys : ordered.map positionKey = List.range' 0 ordered.length := by
    refine map_injective_iff.mpr (Option.some_injective ℕ) ?_
    rw [← hpositions, map_map]
    exact map_congr_left fun p hp => (hsome p hp).symm
  have hlt : ordered.Pairwise fun p q => positionKey p < positionKey q := by
    have hrange : (List.range' 0 ordered.length).Pairwise (· < ·) := pairwise_lt_range'
    rw [← hkeys] at hrange
    exact pairwise_map.mp hrange
  have hinj : ∀ p ∈ ordered, ∀ q ∈ ordered, positionKey p = positionKey q → p = q := by
    have hnodup : (ordered.map positionKey).Nodup := hkeys ▸ nodup_range'
    exact fun p hp q hq heq => inj_on_of_nodup_map hnodup hp hq heq
  have hsorted : params.insertionSort (fun p q => positionKey p ≤ positionKey q) = ordered := by
    have hperm' := (perm_insertionSort (fun p q => positionKey p ≤ positionKey q) params).trans
      hperm.symm
    refine hperm'.eq_of_pairwise (fun p q hp hq hpq hqp => ?_) (pairwise_insertionSort _ _)
      (hlt.imp le_of_lt)
    exact hinj p (hperm'.subset hp) q hq (le_antisymm hpq hqp)
  rw [orderedParams, hsorted, if_neg]
  intro hany
  obtain ⟨p, hp, hnone⟩ := any_eq_true.mp hany
  rw [hsome p hp] at hnone
  cases hnone

end Layout

/-! ## Positional arguments -/

/-- The argument of each parameter: the arguments from left to right, defaults for those that are
missing, and the rest in a list. -/
def filledValues (required optional rest : List Param) (args : List Value) : List Value :=
  args.take (required.length + optional.length) ++
    ((required ++ optional).drop args.length).map Param.defaultValue ++
      rest.map fun _ => Value.list (args.drop (required.length + optional.length))

section Positional

variable {names : DispatchNames} {required optional rest : List Param} {args : List Value}

theorem length_filledValues (required optional rest : List Param) (args : List Value) :
    (filledValues required optional rest args).length =
      (required ++ optional ++ rest).length := by
  simp only [filledValues, length_append, length_take, length_map, length_drop]
  omega

/-- Missing arguments are those of the last optional parameters. -/
theorem drop_defaults (hrequired : required.length ≤ args.length) :
    (optional.map Param.defaultValue).drop (args.length - required.length) =
      ((required ++ optional).drop args.length).map Param.defaultValue := by
  rw [← map_drop, drop_append, drop_eq_nil_of_le hrequired, nil_append]

theorem bindArguments_eq (h : LaidOut names required optional rest)
    (hrequired : required.length ≤ args.length)
    (hargs : rest = [] → args.length ≤ required.length + optional.length) :
    ∃ binding, positionalBinding names (required ++ optional ++ rest) = some binding ∧
      bindArguments binding args = filledValues required optional rest args := by
  have hlayout := parameterLayout_iff.mpr ⟨required, optional, rest, rfl, h, rfl⟩
  have hdefaults : (((required ++ optional ++ rest).take (required.length + optional.length)).drop
      required.length).map Param.defaultValue = optional.map Param.defaultValue := by
    rw [← length_append, take_left, drop_left]
  refine ⟨_, by rw [positionalBinding, hlayout]; rfl, ?_⟩
  dsimp only
  rw [hdefaults]
  rcases rest with _ | ⟨p, _ | ⟨q, rest⟩⟩
  · -- no rest parameter: there are no more arguments than fixed parameters
    have hle := hargs rfl
    simp only [filledValues, map_nil, append_nil, isEmpty_nil, Bool.not_true,
      and_true]
    rw [take_of_length_le hle]
    split_ifs with hall
    · rw [bindArguments, drop_eq_nil_of_le (by rw [length_append]; omega), map_nil,
        append_nil]
    simp only [bindArguments, Bool.false_eq_true, false_and, if_false, length_map]
    split_ifs with hlt
    · rw [drop_defaults hrequired]
    · rw [drop_eq_nil_of_le (by rw [length_append]; omega), map_nil,
        append_nil]
  · simp only [filledValues, isEmpty_cons, Bool.not_false, Bool.true_eq_false, and_false,
      if_false, bindArguments, true_and, if_true, length_map, map_cons, map_nil]
    by_cases hmore : required.length + optional.length < args.length
    · -- all fixed parameters are filled, and the rest goes into the list
      have hnone : (required ++ optional).drop args.length = [] :=
        drop_eq_nil_of_le (by rw [length_append]; omega)
      simp only [if_pos hmore, length_take]
      rw [if_neg (by omega), hnone, map_nil, append_nil]
    simp only [if_neg hmore]
    rw [take_of_length_le (not_lt.mp hmore), drop_eq_nil_of_le (not_lt.mp hmore)]
    split_ifs with hlt
    · rw [drop_defaults hrequired]
    · rw [drop_eq_nil_of_le (by rw [length_append]; omega), map_nil,
        append_nil]
  · have hle := h.rest_le
    simp at hle

/-- **Which positional arguments are accepted, and where each goes.** -/
theorem positionalMethodArgs_iff {params : List Param} {pairs : List (Value × Value)} :
    positionalMethodArgs names params args = some pairs ↔
      ∃ required optional rest, (required ++ optional ++ rest).Perm params ∧
        LaidOut names required optional rest ∧ required.length ≤ args.length ∧
        (rest = [] → args.length ≤ required.length + optional.length) ∧
        pairs = ((required ++ optional ++ rest).map Param.role).zip
          (filledValues required optional rest args) := by
  have hcheck : ∀ {required optional rest : List Param},
      (¬ (args.length < required.length ∨
        ((!rest.isEmpty) = false ∧ required.length + optional.length < args.length))) ↔
      required.length ≤ args.length ∧
        (rest = [] → args.length ≤ required.length + optional.length) := by
    intro required optional rest
    rw [not_or, not_lt, not_and, not_lt, Bool.not_eq_false', List.isEmpty_iff]
  constructor
  · intro h
    obtain ⟨ordered, hordered, h⟩ := Option.bind_eq_some_iff.mp h
    obtain ⟨layout, hlayout, h⟩ := Option.bind_eq_some_iff.mp h
    obtain ⟨required, optional, rest, rfl, hlaid, rfl⟩ := parameterLayout_iff.mp hlayout
    split_ifs at h with hbad
    obtain ⟨hrequired, hargs⟩ := hcheck.mp hbad
    obtain ⟨binding, hbinding, hbound⟩ := bindArguments_eq hlaid hrequired hargs
    rw [hbinding, Option.map_some, hbound, Option.some.injEq] at h
    exact ⟨required, optional, rest, perm_of_orderedParams hordered, hlaid, hrequired, hargs, h.symm⟩
  · rintro ⟨required, optional, rest, hperm, hlaid, hrequired, hargs, rfl⟩
    have hlayout := parameterLayout_iff.mpr ⟨required, optional, rest, rfl, hlaid, rfl⟩
    obtain ⟨binding, hbinding, hbound⟩ := bindArguments_eq hlaid hrequired hargs
    rw [positionalMethodArgs, orderedParams_of_laidOut hlaid hperm, Option.bind_some, hlayout,
      Option.bind_some, if_neg (hcheck.mpr ⟨hrequired, hargs⟩), hbinding, Option.map_some, hbound]

/-! ## What binding is -/

/-- As many arguments as the parameters allow. -/
def AllowsArguments (names : DispatchNames) (params : List Param) (n : ℕ) : Prop :=
  ∃ required optional rest, (required ++ optional ++ rest).Perm params ∧
    LaidOut names required optional rest ∧ required.length ≤ n ∧
    (rest = [] → n ≤ required.length + optional.length)

/-- **Every argument goes to one parameter**: one each to the parameters before the rest, in order,
where those without an argument have their default, and the others in order to the rest. -/
structure BindsArguments (required optional rest : List Param) (args values : List Value) : Prop where
  length : values.length = (required ++ optional ++ rest).length
  fixed : ∀ j < required.length + optional.length,
    values[j]? = args[j]?.or ((required ++ optional)[j]?.map Param.defaultValue)
  collected : rest ≠ [] → values[required.length + optional.length]? =
    some (Value.list (args.drop (required.length + optional.length)))
  complete : rest = [] → args.drop (required.length + optional.length) = []

theorem bindsArguments_filledValues
    (hargs : rest = [] → args.length ≤ required.length + optional.length) :
    BindsArguments required optional rest args (filledValues required optional rest args) where
  length := length_filledValues required optional rest args
  fixed j hj := by
    have hlt : j < (args.take (required.length + optional.length) ++
        ((required ++ optional).drop args.length).map Param.defaultValue).length := by
      simp only [length_append, length_take, length_map, length_drop]
      omega
    rw [filledValues, getElem?_append_left hlt]
    by_cases hn : j < args.length
    · rw [getElem?_append_left (by rw [length_take]; omega), getElem?_take,
        if_pos hj, getElem?_eq_getElem hn, Option.some_or]
    have htake : (args.take (required.length + optional.length)).length = args.length := by
      rw [length_take]
      omega
    rw [getElem?_append_right (by omega), htake, getElem?_map, getElem?_drop,
      getElem?_eq_none (not_lt.mp hn), Option.none_or, Nat.add_sub_cancel' (not_lt.mp hn)]
  collected hrest := by
    have hlen : (args.take (required.length + optional.length) ++
        ((required ++ optional).drop args.length).map Param.defaultValue).length =
          required.length + optional.length := by
      simp only [length_append, length_take, length_map, length_drop]
      omega
    obtain ⟨p, rest, rfl⟩ := exists_cons_of_ne_nil hrest
    rw [filledValues, getElem?_append_right hlen.le, hlen, Nat.sub_self, map_cons]
    rfl
  complete hrest := drop_eq_nil_of_le (hargs hrest)

end Positional

/-! ## Named arguments -/

/-- The roles of the parameters that get arguments by position, with these. -/
def assignedRoles (required optional rest : List Param) (args : List Value) : List (Value × Value) :=
  ((required ++ optional).map Param.role).zip args ++
    if required.length + optional.length < args.length then
      rest.map fun p => (p.role, Value.list (args.drop (required.length + optional.length)))
    else []

section Named

variable {names : DispatchNames} {required optional rest params : List Param} {args : List Value}

theorem roleValue_zip : ∀ {params : List Param} {values : List Value} {i : ℕ} {p : Param},
    (params.map Param.role).Nodup → params[i]? = some p →
      roleValue ((params.map Param.role).zip values) p.role = values[i]?
  | [], _, _, _, _, hp => by simp at hp
  | _ :: _, [], _, _, _, _ => by simp [roleValue]
  | q :: params, v :: values, 0, p, _, hp => by
    obtain rfl : q = p := by simpa using hp
    simp [roleValue]
  | q :: params, v :: values, i + 1, p, hnodup, hp => by
    rw [map_cons, nodup_cons] at hnodup
    rw [getElem?_cons_succ] at hp
    have hne : q.role ≠ p.role := fun heq =>
      hnodup.1 (heq ▸ mem_map_of_mem (mem_of_getElem? hp))
    have hrest : roleValue ((params.map Param.role).zip values) p.role = values[i]? :=
      roleValue_zip hnodup.2 hp
    rwa [map_cons, zip_cons_cons, roleValue, find?_cons_of_neg (by simpa using hne),
      getElem?_cons_succ]

theorem roleValue_append (roles roles' : List (Value × Value)) (role : Value) :
    roleValue (roles ++ roles') role = (roleValue roles role).or (roleValue roles' role) := by
  rw [roleValue, find?_append, roleValue, roleValue]
  cases roles.find? fun entry => entry.1 = role with
  | none => rfl
  | some entry => rfl

theorem roleValue_eq_none {roles : List (Value × Value)} {role : Value}
    (h : ∀ entry ∈ roles, entry.1 ≠ role) : roleValue roles role = none := by
  rw [roleValue, find?_eq_none.mpr fun entry hentry => by simpa using h entry hentry]
  rfl

/-- A named call gives each parameter the value that its role has, or that it has without one. -/
theorem methodCallArgsFromParams_eq (h : LaidOut names required optional rest)
    (hperm : (required ++ optional ++ rest).Perm params) {roles : List (Value × Value)}
    {values : List Value}
    (hvalues : List.Forall₂ (fun p v => namedArgument names roles p = some v)
      (required ++ optional ++ rest) values) :
    methodCallArgsFromParams names params roles = some values := by
  rw [methodCallArgsFromParams, orderedParams_of_laidOut h hperm, Option.bind_some,
    parameterLayout_iff.mpr ⟨required, optional, rest, rfl, h, rfl⟩, Option.bind_some]
  exact Collect.mapM_eq_some.mpr hvalues

/-- The value of a role that is there, where it has to be a list for a rest parameter. -/
theorem namedArgument_of_roleValue {roles : List (Value × Value)} {p : Param} {v : Value}
    (hrole : roleValue roles p.role = some v) (hmode : ∃ mode, parameterMode names p = some mode)
    (hlist : parameterMode names p = some .rest → v.isList = true) :
    namedArgument names roles p = some v := by
  obtain ⟨mode, hmode⟩ := hmode
  rw [namedArgument, hmode, hrole]
  cases mode with
  | required => rfl
  | optional => rfl
  | rest =>
    dsimp only
    rw [if_pos (hlist hmode)]

theorem LaidOutFrom.exists_mode (h : LaidOut names required optional rest) :
    ∀ p ∈ required ++ optional ++ rest, ∃ mode, parameterMode names p = some mode := by
  intro p hp
  rcases mem_append.mp hp with hp | hp
  · rcases mem_append.mp hp with hp | hp
    · exact ⟨_, h.required_mode p hp⟩
    · exact ⟨_, h.optional_mode p hp⟩
  · exact ⟨_, h.rest_mode p hp⟩

/-- Only the rest parameter has the mode, and its place is behind the others. -/
theorem LaidOutFrom.rest_place (h : LaidOut names required optional rest) {i : ℕ} {p : Param}
    (hp : (required ++ optional ++ rest)[i]? = some p) (hmode : parameterMode names p = some .rest) :
    i = required.length + optional.length ∧ rest ≠ [] := by
  rw [getElem?_append] at hp
  split at hp
  · rcases mem_append.mp (mem_of_getElem? hp) with hmem | hmem
    · rw [h.required_mode p hmem] at hmode
      cases hmode
    · rw [h.optional_mode p hmem] at hmode
      cases hmode
  rename_i hge
  rw [length_append] at hp hge
  obtain ⟨hlt, -⟩ := List.getElem?_eq_some_iff.mp hp
  have hle := h.rest_le
  exact ⟨by omega, ne_nil_of_length_pos (by omega)⟩

/-- **A named call with every role that position fills gives the same arguments.** -/
theorem named_of_pairs (h : LaidOut names required optional rest)
    (hperm : (required ++ optional ++ rest).Perm params)
    (hdistinct : (params.map Param.role).Nodup) {values : List Value}
    (hbinds : BindsArguments required optional rest args values) :
    methodCallArgsFromParams names params
      (((required ++ optional ++ rest).map Param.role).zip values) = some values := by
  have hnodup : ((required ++ optional ++ rest).map Param.role).Nodup :=
    (hperm.map Param.role).nodup_iff.mpr hdistinct
  refine methodCallArgsFromParams_eq h hperm (forall₂_iff_get.mpr
    ⟨hbinds.length.symm, fun i hi hi' => ?_⟩)
  have hp := getElem?_eq_getElem hi
  rw [get_eq_getElem, get_eq_getElem]
  refine namedArgument_of_roleValue ?_ (h.exists_mode _ (getElem_mem hi)) fun hmode => ?_
  · rw [roleValue_zip hnodup hp, getElem?_eq_getElem hi']
  · obtain ⟨rfl, hrest⟩ := h.rest_place hp hmode
    have hcollected := hbinds.collected hrest
    rw [getElem?_eq_getElem hi', Option.some.injEq] at hcollected
    rw [hcollected, Value.isList_list]

/-- A role that no argument was given for. -/
theorem namedArgument_of_missing {roles : List (Value × Value)} {p : Param}
    (hrole : roleValue roles p.role = none) :
    (parameterMode names p = some .optional → namedArgument names roles p = some p.defaultValue) ∧
      (parameterMode names p = some .rest →
        namedArgument names roles p = some (Value.list [])) := by
  refine ⟨fun hmode => ?_, fun hmode => ?_⟩
  · rw [namedArgument, hmode, hrole]
    rfl
  · rw [namedArgument, hmode, hrole]

/-- The argument of a parameter before the rest, from the roles that position fills. -/
theorem roleValue_assigned_fixed (args : List Value)
    (hnodup : ((required ++ optional ++ rest).map Param.role).Nodup) {i : ℕ} {p : Param}
    (hp : (required ++ optional)[i]? = some p) :
    roleValue (assignedRoles required optional rest args) p.role = args[i]? := by
  have hfixed : ((required ++ optional).map Param.role).Nodup := by
    rw [map_append] at hnodup
    exact hnodup.of_append_left
  have hi : i < required.length + optional.length := by
    rw [← length_append]
    exact (List.getElem?_eq_some_iff.mp hp).1
  rw [assignedRoles, roleValue_append, roleValue_zip hfixed hp]
  by_cases hn : i < args.length
  · rw [getElem?_eq_getElem hn, Option.some_or]
  · rw [if_neg (by omega), getElem?_eq_none (not_lt.mp hn)]
    rfl

/-- The argument of the rest parameter. -/
theorem roleValue_assigned_rest (args : List Value) {p : Param}
    (hnodup : ((required ++ optional ++ [p]).map Param.role).Nodup) :
    roleValue (assignedRoles required optional [p] args) p.role =
      if required.length + optional.length < args.length then
        some (Value.list (args.drop (required.length + optional.length)))
      else none := by
  have hother : roleValue (((required ++ optional).map Param.role).zip args) p.role = none := by
    refine roleValue_eq_none fun entry hentry heq => ?_
    rw [map_append, map_singleton] at hnodup
    have hmem := (of_mem_zip hentry).1
    exact (nodup_append.mp hnodup).2.2 _ hmem _ (mem_singleton_self _) heq
  rw [assignedRoles, roleValue_append, hother, Option.none_or]
  split
  · simp [roleValue]
  · rfl

/-- **So does one with the roles that arguments were given for.** -/
theorem named_of_assigned (h : LaidOut names required optional rest)
    (hperm : (required ++ optional ++ rest).Perm params)
    (hdistinct : (params.map Param.role).Nodup) (hrequired : required.length ≤ args.length)
    {values : List Value} (hbinds : BindsArguments required optional rest args values) :
    methodCallArgsFromParams names params (assignedRoles required optional rest args) =
      some values := by
  have hnodup : ((required ++ optional ++ rest).map Param.role).Nodup :=
    (hperm.map Param.role).nodup_iff.mpr hdistinct
  refine methodCallArgsFromParams_eq h hperm (forall₂_iff_get.mpr
    ⟨hbinds.length.symm, fun i hi hi' => ?_⟩)
  have hp := getElem?_eq_getElem hi
  have hv := getElem?_eq_getElem hi'
  rw [get_eq_getElem, get_eq_getElem]
  generalize (required ++ optional ++ rest)[i] = p at hp
  generalize values[i] = v at hv
  by_cases hfixed : i < required.length + optional.length
  · have hp' : (required ++ optional)[i]? = some p := by
      rwa [getElem?_append_left (by rwa [length_append])] at hp
    have hrole := roleValue_assigned_fixed args hnodup hp'
    rw [hbinds.fixed i hfixed, hp', Option.map_some] at hv
    by_cases hn : i < args.length
    · rw [getElem?_eq_getElem hn, Option.some_or] at hv
      rw [getElem?_eq_getElem hn, hv] at hrole
      refine namedArgument_of_roleValue hrole (h.exists_mode p (mem_of_getElem? hp))
        fun hmode => ?_
      exact absurd (h.rest_place hp hmode).1 hfixed.ne
    -- a parameter without an argument is optional
    rw [getElem?_eq_none (not_lt.mp hn)] at hrole hv
    obtain rfl : p.defaultValue = v := Option.some.inj hv
    have hmem : p ∈ optional := by
      rw [getElem?_append_right (by omega)] at hp'
      exact mem_of_getElem? hp'
    exact (namedArgument_of_missing hrole).1 (h.optional_mode p hmem)
  · rcases rest with _ | ⟨q, _ | ⟨q', rest⟩⟩
    · simp only [append_nil, length_append] at hi
      omega
    · simp only [length_append, length_singleton] at hi
      obtain rfl : i = required.length + optional.length := by omega
      rw [getElem?_append_right (by rw [length_append]), length_append,
        Nat.sub_self] at hp
      obtain rfl : q = p := by simpa using hp
      have hmode := h.rest_mode q mem_cons_self
      rw [hbinds.collected (cons_ne_nil _ _), Option.some.injEq] at hv
      have hrole := roleValue_assigned_rest args hnodup
      by_cases hmore : required.length + optional.length < args.length
      · rw [if_pos hmore, hv] at hrole
        exact namedArgument_of_roleValue hrole ⟨_, hmode⟩ fun _ => hv ▸ Value.isList_list _
      · rw [if_neg hmore] at hrole
        rw [drop_eq_nil_of_le (not_lt.mp hmore)] at hv
        rw [← hv]
        exact (namedArgument_of_missing hrole).2 hmode
    · have hle := h.rest_le
      simp at hle

end Named

/-- **Positional and named binding agree**, where every role is declared once; whatever the roles, as
many positional arguments are accepted as the parameters allow, and each goes to one parameter. -/
theorem positional_named_agree (names : DispatchNames) (params : List Param) (args : List Value) :
    ((positionalMethodArgs names params args).isSome = true ↔
      AllowsArguments names params args.length) ∧
    ∀ pairs, positionalMethodArgs names params args = some pairs →
      ∃ required optional rest, (required ++ optional ++ rest).Perm params ∧
        LaidOut names required optional rest ∧
        pairs.map Prod.fst = (required ++ optional ++ rest).map Param.role ∧
        BindsArguments required optional rest args (pairs.map Prod.snd) ∧
        ((params.map Param.role).Nodup →
          methodCallArgsFromParams names params (assignedRoles required optional rest args) =
            some (pairs.map Prod.snd) ∧
          methodCallArgsFromParams names params pairs = some (pairs.map Prod.snd)) := by
  constructor
  · rw [Option.isSome_iff_exists]
    constructor
    · rintro ⟨pairs, h⟩
      obtain ⟨required, optional, rest, hperm, hlaid, hrequired, hargs, -⟩ :=
        positionalMethodArgs_iff.mp h
      exact ⟨required, optional, rest, hperm, hlaid, hrequired, hargs⟩
    · rintro ⟨required, optional, rest, hperm, hlaid, hrequired, hargs⟩
      exact ⟨_, positionalMethodArgs_iff.mpr
        ⟨required, optional, rest, hperm, hlaid, hrequired, hargs, rfl⟩⟩
  · intro pairs h
    obtain ⟨required, optional, rest, hperm, hlaid, hrequired, hargs, rfl⟩ :=
      positionalMethodArgs_iff.mp h
    have hbinds : BindsArguments required optional rest args
        (filledValues required optional rest args) := bindsArguments_filledValues hargs
    have hlen : ((required ++ optional ++ rest).map Param.role).length =
        (filledValues required optional rest args).length := by
      rw [length_map, length_filledValues]
    have hsnd : (((required ++ optional ++ rest).map Param.role).zip
        (filledValues required optional rest args)).map Prod.snd =
          filledValues required optional rest args := map_snd_zip hlen.ge
    refine ⟨required, optional, rest, hperm, hlaid, map_fst_zip hlen.le, ?_,
      fun hdistinct => ⟨?_, ?_⟩⟩
    · rwa [hsnd]
    · rw [hsnd]
      exact named_of_assigned hlaid hperm hdistinct hrequired hbinds
    · rw [hsnd]
      exact named_of_pairs hlaid hperm hdistinct hbinds

/-- The names as a process may intern them. -/
def exampleNames : DispatchNames := ⟨⟨0⟩, ⟨1⟩, ⟨2⟩, ⟨3⟩, ⟨4⟩, by decide⟩

/-- Two required parameters with one role. -/
def sameRoleTwice : List Param :=
  [⟨.symbol ⟨5⟩, .symbol ⟨0⟩, .int ⟨0, intMin_le_zero, zero_le_intMax⟩, .symbol ⟨2⟩, .bool false⟩,
    ⟨.symbol ⟨5⟩, .symbol ⟨0⟩, .int ⟨1, by decide, by decide⟩, .symbol ⟨2⟩, .bool false⟩]

/-- A named call gives both parameters of one role the value of the first. -/
theorem named_loses_second :
    positionalMethodArgs exampleNames sameRoleTwice [.bool true, .bool false] =
      some [(.symbol ⟨5⟩, .bool true), (.symbol ⟨5⟩, .bool false)] ∧
    methodCallArgsFromParams exampleNames sameRoleTwice
      [(.symbol ⟨5⟩, .bool true), (.symbol ⟨5⟩, .bool false)] = some [.bool true, .bool true] := by
  decide +kernel

end Mica
