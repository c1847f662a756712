import Mica.Lib.OrderCode

/-!
# Var/Value — the values of the language and their total order

A value is a bool, a 56-bit integer, a finite `f32`, one of the name-like scalars, a string or byte
string, or one of the nested kinds: list, map, range, error, frob, relation.  The scalars carry
their own range checks as structure fields, so a scalar that the constructors reject cannot be
written down.  The nested kinds are the inductive `RawValue`; a `Value`
is one that the constructors of maps and relations can build.

`RawValue.cmp` is `Ord for Value`: first the kind, then the payload, sequences lexicographically and
an absent option first.
-/

open OrderCode List

namespace Mica

/-! ## Scalars -/

/-- An interned name; the number is the process-local position in the symbol table. -/
structure Symbol where
  id : UInt32
  deriving DecidableEq

/-- The 56-bit payload mask of a packed word. -/
def maxPayload : ℕ := 2 ^ 56 - 1

/-- Stable entity identity payload. -/
structure Identity where
  raw : UInt64
  raw_le : raw.toNat ≤ maxPayload
  deriving DecidableEq

/-- Ephemeral authority designation payload; zero is not a capability. -/
structure CapabilityId where
  raw : UInt64
  raw_le : raw.toNat ≤ maxPayload
  raw_ne : raw ≠ 0
  deriving DecidableEq

/-- Ephemeral VM-local function designation payload. -/
structure FunctionId where
  raw : UInt64
  raw_le : raw.toNat ≤ maxPayload
  deriving DecidableEq

/-- `INT_MIN`. -/
def intMin : ℤ := -2 ^ 55

/-- `INT_MAX`. -/
def intMax : ℤ := 2 ^ 55 - 1

theorem byte_le_maxPayload (n : UInt8) : n.toUInt64.toNat ≤ maxPayload :=
  n.toNat_lt.le.trans (by decide)

/-- The identity of a small number. -/
def Identity.ofByte (n : UInt8) : Identity := ⟨n.toUInt64, byte_le_maxPayload n⟩

theorem intMin_le_zero : intMin ≤ 0 := by decide

theorem zero_le_intMax : 0 ≤ intMax := by decide

/-- An integer that fits the 56-bit payload. -/
structure Integer where
  val : ℤ
  min_le : intMin ≤ val
  le_max : val ≤ intMax
  deriving DecidableEq

/-- The exponent field of binary32 bits. -/
def f32Exponent (bits : UInt32) : ℕ := bits.toNat / 2 ^ 23 % 2 ^ 8

/-- A finite binary32 number by its bits, with the one zero the constructor keeps. -/
structure FiniteF32 where
  bits : UInt32
  finite : f32Exponent bits ≠ 255
  ne_negZero : bits ≠ 0x80000000
  deriving DecidableEq

/-! ## Values -/

/-- A value as it lies on the heap. -/
inductive RawValue where
  | bool (value : Bool)
  | int (value : Integer)
  | float (value : FiniteF32)
  | identity (identity : Identity)
  | symbol (symbol : Symbol)
  | errorCode (symbol : Symbol)
  | string (value : String)
  | bytes (value : Bytes)
  | list (values : List RawValue)
  | map (entries : List (RawValue × RawValue))
  | range (start : RawValue) (stop : Option RawValue)
  | error (code : Symbol) (message : Option String) (value : Option RawValue)
  | capability (capability : CapabilityId)
  | frob (delegate : Identity) (value : RawValue)
  | function (function : FunctionId)
  | relation (heading : List Symbol) (rows : List (List RawValue))

/-- The kinds, in the order of their tags. -/
inductive ValueKind where
  | bool | int | float | identity | symbol | errorCode | string | bytes
  | list | map | range | error | capability | frob | function | relation
  deriving DecidableEq

/-- `ValueKind as u8`. -/
def ValueKind.tag : ValueKind → UInt8
  | bool => 1
  | int => 2
  | float => 3
  | identity => 4
  | symbol => 5
  | errorCode => 6
  | string => 7
  | bytes => 8
  | list => 9
  | map => 10
  | range => 11
  | error => 12
  | capability => 13
  | frob => 14
  | function => 15
  | relation => 16

theorem ValueKind.tag_injective : Function.Injective ValueKind.tag := by
  intro a b h
  cases a <;> cases b <;> first | rfl | exact absurd h (by decide)

namespace RawValue

def kind : RawValue → ValueKind
  | .bool _ => .bool
  | .int _ => .int
  | .float _ => .float
  | .identity _ => .identity
  | .symbol _ => .symbol
  | .errorCode _ => .errorCode
  | .string _ => .string
  | .bytes _ => .bytes
  | .list _ => .list
  | .map _ => .map
  | .range _ _ => .range
  | .error _ _ _ => .error
  | .capability _ => .capability
  | .frob _ _ => .frob
  | .function _ => .function
  | .relation _ _ => .relation

/-- **Induction on a value**, with the hypothesis for every value held by a nested one. -/
@[elab_as_elim, induction_eliminator]
theorem induction {P : RawValue → Prop} (v : RawValue)
    (bool : ∀ b, P (.bool b)) (int : ∀ i, P (.int i)) (float : ∀ f, P (.float f))
    (identity : ∀ i, P (.identity i)) (symbol : ∀ s, P (.symbol s))
    (errorCode : ∀ s, P (.errorCode s)) (string : ∀ s, P (.string s)) (bytes : ∀ b, P (.bytes b))
    (list : ∀ vs, (∀ v ∈ vs, P v) → P (.list vs))
    (map : ∀ es, (∀ e ∈ es, P e.1 ∧ P e.2) → P (.map es))
    (range : ∀ a x, P a → (∀ v ∈ x, P v) → P (.range a x))
    (error : ∀ c m x, (∀ v ∈ x, P v) → P (.error c m x))
    (capability : ∀ c, P (.capability c)) (frob : ∀ d v, P v → P (.frob d v))
    (function : ∀ f, P (.function f))
    (relation : ∀ h rows, (∀ row ∈ rows, ∀ v ∈ row, P v) → P (.relation h rows)) : P v := by
  refine @RawValue.rec P (fun vs => ∀ v ∈ vs, P v) (fun es => ∀ e ∈ es, P e.1 ∧ P e.2)
    (fun x => ∀ v ∈ x, P v) (fun rows => ∀ row ∈ rows, ∀ v ∈ row, P v) (fun e => P e.1 ∧ P e.2)
    bool int float identity symbol errorCode string bytes list map range error capability frob
    function relation ?_ ?_ ?_ ?_ ?_ ?_ ?_ ?_ ?_ v
  · exact nofun
  · exact fun _ _ hv hvs => forall_mem_cons.mpr ⟨hv, hvs⟩
  · exact nofun
  · exact fun _ _ he hes => forall_mem_cons.mpr ⟨he, hes⟩
  · exact nofun
  · intro v hv w hw
    cases hw
    exact hv
  · exact nofun
  · exact fun _ _ hr hrs => forall_mem_cons.mpr ⟨hr, hrs⟩
  · exact fun _ _ hk hv => ⟨hk, hv⟩

/-- Two values of one kind, by their payloads. -/
inductive SameKind : RawValue → RawValue → Prop
  | bool a b : SameKind (.bool a) (.bool b)
  | int a b : SameKind (.int a) (.int b)
  | float a b : SameKind (.float a) (.float b)
  | identity a b : SameKind (.identity a) (.identity b)
  | symbol a b : SameKind (.symbol a) (.symbol b)
  | errorCode a b : SameKind (.errorCode a) (.errorCode b)
  | string a b : SameKind (.string a) (.string b)
  | bytes a b : SameKind (.bytes a) (.bytes b)
  | list a b : SameKind (.list a) (.list b)
  | map a b : SameKind (.map a) (.map b)
  | range a x b y : SameKind (.range a x) (.range b y)
  | error c m x d n y : SameKind (.error c m x) (.error d n y)
  | capability a b : SameKind (.capability a) (.capability b)
  | frob d a e b : SameKind (.frob d a) (.frob e b)
  | function a b : SameKind (.function a) (.function b)
  | relation h a k b : SameKind (.relation h a) (.relation k b)

theorem sameKind_of_kind_eq {a b : RawValue} (h : a.kind = b.kind) : SameKind a b := by
  cases a <;> cases b <;> first | constructor | exact nomatch h

end RawValue

/-! ## The order of the scalars -/

/-- The UTF-8 bytes of a string. -/
def utf8 (s : String) : Bytes := s.toByteArray.data.toList

/-- `Ord for str`: by bytes. -/
def cmpStr (s t : String) : Ordering := compare (utf8 s) (utf8 t)

/-- `Ord for Option<_>`: absent first. -/
def cmpOption {α : Type} (c : α → α → Ordering) : Option α → Option α → Ordering
  | none, none => .eq
  | none, some _ => .lt
  | some _, none => .gt
  | some a, some b => c a b

/-- `Ord for Symbol`: by interned position. -/
def Symbol.cmp (a b : Symbol) : Ordering := compare a.id.toNat b.id.toNat

/-- `Ord for [Symbol]`. -/
def cmpSymbols : List Symbol → List Symbol → Ordering
  | [], [] => .eq
  | [], _ :: _ => .lt
  | _ :: _, [] => .gt
  | a :: as, b :: bs => (a.cmp b).then (cmpSymbols as bs)

/-- The sign-and-magnitude bits as the two's complement number `f32::total_cmp` compares:
`left ^= (((left >> 31) as u32) >> 1) as i32`. -/
def totalCmpKey (bits : UInt32) : ℤ :=
  if bits.toNat < 2 ^ 31 then bits.toNat else -(bits.toNat - 2 ^ 31 : ℤ) - 1

/-- `f32::total_cmp`. -/
def FiniteF32.totalCmp (a b : FiniteF32) : Ordering :=
  compare (totalCmpKey a.bits) (totalCmpKey b.bits)

/-! ## The order of values -/

mutual

/-- `Ord for Value`. -/
def RawValue.cmp : RawValue → RawValue → Ordering
  | .bool a, .bool b => compare a.toNat b.toNat
  | .int a, .int b => compare a.val b.val
  | .float a, .float b => a.totalCmp b
  | .identity a, .identity b => compare a.raw.toNat b.raw.toNat
  | .symbol a, .symbol b => a.cmp b
  | .errorCode a, .errorCode b => a.cmp b
  | .capability a, .capability b => compare a.raw.toNat b.raw.toNat
  | .function a, .function b => compare a.raw.toNat b.raw.toNat
  | .string a, .string b => cmpStr a b
  | .bytes a, .bytes b => compare a b
  | .list a, .list b => cmpValues a b
  | .map a, .map b => cmpEntries a b
  | .relation h a, .relation k b => (cmpSymbols h k).then (cmpRows a b)
  | .range a x, .range b y => (a.cmp b).then (cmpOptionValue x y)
  | .error c m x, .error d n y =>
    (c.cmp d).then ((cmpOption cmpStr m n).then (cmpOptionValue x y))
  | .frob d a, .frob e b => (compare d.raw.toNat e.raw.toNat).then (a.cmp b)
  | a, b => compare a.kind.tag b.kind.tag
termination_by structural a => a

/-- `Ord for [Value]`. -/
def cmpValues : List RawValue → List RawValue → Ordering
  | [], [] => .eq
  | [], _ :: _ => .lt
  | _ :: _, [] => .gt
  | a :: as, b :: bs => (a.cmp b).then (cmpValues as bs)
termination_by structural a => a

/-- `Ord for [(Value, Value)]`. -/
def cmpEntries : List (RawValue × RawValue) → List (RawValue × RawValue) → Ordering
  | [], [] => .eq
  | [], _ :: _ => .lt
  | _ :: _, [] => .gt
  | (k, v) :: as, (l, w) :: bs => ((k.cmp l).then (v.cmp w)).then (cmpEntries as bs)
termination_by structural a => a

/-- `Ord for [Tuple]`. -/
def cmpRows : List (List RawValue) → List (List RawValue) → Ordering
  | [], [] => .eq
  | [], _ :: _ => .lt
  | _ :: _, [] => .gt
  | a :: as, b :: bs => (cmpValues a b).then (cmpRows as bs)
termination_by structural a => a

/-- `Ord for Option<Value>`. -/
def cmpOptionValue : Option RawValue → Option RawValue → Ordering
  | none, none => .eq
  | none, some _ => .lt
  | some _, none => .gt
  | some a, some b => a.cmp b
termination_by structural a => a

end

/-- Values of different kinds compare by kind. -/
theorem RawValue.cmp_of_kind_ne {a b : RawValue} (h : a.kind ≠ b.kind) :
    a.cmp b = compare a.kind.tag b.kind.tag := by
  cases a <;> cases b <;> first | rfl | exact absurd rfl h

/-! ## The values the constructors build

`Value::map` sorts its entries and keeps one per key; `RelationValue::new` sorts its heading and
its rows, keeps one of each, and refuses a row whose arity is not the heading's. -/

/-- The widest heading, `u16::MAX`. -/
def maxHeading : ℕ := 65535

mutual

/-- Maps are sorted by distinct keys; relations have a sorted heading of distinct columns, rows of
its arity, and sorted distinct rows — at every depth. -/
def RawValue.isCanonical : RawValue → Bool
  | .list vs => valuesCanonical vs
  | .map es => entriesCanonical es && decide (es.Pairwise fun e f => e.1.cmp f.1 = .lt)
  | .range a x => a.isCanonical && optionCanonical x
  | .error _ _ x => optionCanonical x
  | .frob _ v => v.isCanonical
  | .relation h rows =>
    decide (h.length ≤ maxHeading) && decide (h.Pairwise fun a b => a.cmp b = .lt) &&
      decide (∀ row ∈ rows, row.length = h.length) &&
      decide (rows.Pairwise fun a b => cmpValues a b = .lt) && rowsCanonical rows
  | _ => true
termination_by structural v => v

def valuesCanonical : List RawValue → Bool
  | [] => true
  | v :: vs => v.isCanonical && valuesCanonical vs
termination_by structural vs => vs

def entriesCanonical : List (RawValue × RawValue) → Bool
  | [] => true
  | (k, v) :: es => k.isCanonical && v.isCanonical && entriesCanonical es
termination_by structural es => es

def rowsCanonical : List (List RawValue) → Bool
  | [] => true
  | row :: rows => valuesCanonical row && rowsCanonical rows
termination_by structural rows => rows

def optionCanonical : Option RawValue → Bool
  | none => true
  | some v => v.isCanonical
termination_by structural x => x

end

theorem valuesCanonical_iff : ∀ {vs : List RawValue},
    valuesCanonical vs = true ↔ ∀ v ∈ vs, v.isCanonical = true
  | [] => by simp only [valuesCanonical, not_mem_nil, false_implies, implies_true]
  | v :: vs => by
    rw [valuesCanonical, Bool.and_eq_true, valuesCanonical_iff, forall_mem_cons]

theorem entriesCanonical_iff : ∀ {es : List (RawValue × RawValue)},
    entriesCanonical es = true ↔ ∀ e ∈ es, e.1.isCanonical = true ∧ e.2.isCanonical = true
  | [] => by simp only [entriesCanonical, not_mem_nil, false_implies, implies_true]
  | (k, v) :: es => by
    rw [entriesCanonical, Bool.and_eq_true, Bool.and_eq_true, entriesCanonical_iff,
      forall_mem_cons]

theorem rowsCanonical_iff : ∀ {rows : List (List RawValue)},
    rowsCanonical rows = true ↔ ∀ row ∈ rows, ∀ v ∈ row, v.isCanonical = true
  | [] => by simp only [rowsCanonical, not_mem_nil, false_implies, implies_true]
  | row :: rows => by
    rw [rowsCanonical, Bool.and_eq_true, valuesCanonical_iff, rowsCanonical_iff,
      forall_mem_cons]

/-- **A value**: what the constructors build. -/
@[ext] structure Value where
  raw : RawValue
  canonical : raw.isCanonical = true

end Mica
