import Mica.Kernel.Metadata
import Mica.Lib.SortedList

/-!
# Runtime/Authority — what a task may do

A task acts under an authority: the relations it may read, and the capabilities it holds.  Builtins
mint further capabilities into it while the task runs.
-/

open SortedList

namespace Mica

theorem CapabilityId.raw_injective : Function.Injective fun c : CapabilityId => c.raw.toNat := by
  rintro ⟨a, _, _⟩ ⟨b, _, _⟩ h
  obtain rfl : a = b := UInt64.toNat_inj.mp h
  rfl

instance : LinearOrder CapabilityId :=
  LinearOrder.lift' (fun c : CapabilityId => c.raw.toNat) CapabilityId.raw_injective

/-- `CapabilityId::new`, of a counter that does not wrap. -/
def CapabilityId.ofCounter (raw : ℕ) : Option CapabilityId :=
  if h : raw ≤ maxPayload ∧ raw ≠ 0 then
    have hlt : raw < 2 ^ 64 := h.1.trans_lt (by decide)
    have htoNat : (UInt64.ofNat raw).toNat = raw := UInt64.toNat_ofNat_of_lt' hlt
    some ⟨UInt64.ofNat raw, htoNat.trans_le h.1, fun h0 => h.2 (by rw [← htoNat, h0]; rfl)⟩
  else none

theorem CapabilityId.ofCounter_eq_some {raw : ℕ} {id : CapabilityId}
    (h : ofCounter raw = some id) : id.raw.toNat = raw := by
  unfold ofCounter at h
  split at h
  · next hraw =>
    obtain rfl := Option.some.inj h
    exact UInt64.toNat_ofNat_of_lt' (hraw.1.trans_lt (by decide))
  · cases h

inductive CapabilityOp where
  | read | write | invoke | effect | grant
  deriving DecidableEq

inductive CapabilityScope where
  | all
  | relation (relation : RelationId)
  | method (method : Value)
  | builtin (name : Symbol)
  deriving DecidableEq

structure CapabilityGrant where
  ops : List CapabilityOp
  scope : CapabilityScope
  deriving DecidableEq

/-- `CapabilityGrant::allows_effect`. -/
def CapabilityGrant.allowsEffect (grant : CapabilityGrant) : Bool :=
  .effect ∈ grant.ops && grant.scope = .all

/-- The relations that may be read. -/
inductive ReadAuthority where
  | all
  | relations (granted : SortedSet RelationId)

/-- `ReadAuthority::allows`. -/
def ReadAuthority.allows (authority : ReadAuthority) (relation : RelationId) : Bool :=
  match authority with
  | .all => true
  | .relations granted => relation ∈ granted

/-- `ReadAuthority::grant`. -/
def ReadAuthority.grant (authority : ReadAuthority) (relation : RelationId) : ReadAuthority :=
  match authority with
  | .all => .all
  | .relations granted => .relations (granted.insert relation)

structure AuthorityContext where
  root : Bool
  readAuthority : ReadAuthority
  capabilities : SortedMap CapabilityId CapabilityGrant
  nextId : ℕ

namespace AuthorityContext

/-- `AuthorityContext::empty`. -/
def empty : AuthorityContext := ⟨false, .relations SortedSet.empty, SortedMap.empty, 1⟩

/-- `AuthorityContext::root`. -/
def rootContext : AuthorityContext := ⟨true, .all, SortedMap.empty, 1⟩

/-- The loop of `AuthorityContext::allocate_id`, which tries one number after the other; it passes each
capability at most once. -/
def allocateFrom (capabilities : SortedMap CapabilityId CapabilityGrant) :
    ℕ → ℕ → Option CapabilityId × ℕ
  | 0, raw => (none, raw)
  | n + 1, raw =>
    match CapabilityId.ofCounter raw with
    | some id => if id ∈ capabilities.keys then allocateFrom capabilities n (raw + 1)
      else (some id, raw + 1)
    | none => allocateFrom capabilities n (raw + 1)

theorem lt_allocateFrom (capabilities : SortedMap CapabilityId CapabilityGrant) :
    ∀ n raw, raw < (allocateFrom capabilities (n + 1) raw).2
  | 0, raw => by
    unfold allocateFrom
    split
    · split
      · exact Nat.lt_succ_self raw
      · exact Nat.lt_succ_self raw
    · exact Nat.lt_succ_self raw
  | n + 1, raw => by
    have hnext := lt_allocateFrom capabilities n (raw + 1)
    unfold allocateFrom
    split
    · split
      · exact (Nat.lt_succ_self raw).trans hnext
      · exact Nat.lt_succ_self raw
    · exact (Nat.lt_succ_self raw).trans hnext

/-- `AuthorityContext::mint`. -/
def mint (authority : AuthorityContext) (grant : CapabilityGrant) : AuthorityContext :=
  let (id, nextId) := allocateFrom authority.capabilities
    (authority.capabilities.list.length + 1) authority.nextId
  let readAuthority :=
    if .read ∈ grant.ops then
      match grant.scope with
      | .all => .all
      | .relation relation => authority.readAuthority.grant relation
      | _ => authority.readAuthority
    else authority.readAuthority
  match id with
  | some id =>
    { authority with
      readAuthority, nextId
      capabilities := authority.capabilities.insert id grant }
  -- every number is taken: the loop goes on for ever
  | none => { authority with nextId }

/-- **Minting leaves a mark**: the next number goes up. -/
theorem nextId_lt_mint (authority : AuthorityContext) (grant : CapabilityGrant) :
    authority.nextId < (authority.mint grant).nextId := by
  have hlt := lt_allocateFrom authority.capabilities authority.capabilities.list.length
    authority.nextId
  unfold mint
  generalize allocateFrom authority.capabilities _ authority.nextId = p at hlt
  obtain ⟨id, nextId⟩ := p
  cases id with
  | none => exact hlt
  | some id => exact hlt

/-- `AuthorityContext::can_read_relation`. -/
def canReadRelation (authority : AuthorityContext) (relation : RelationId) : Bool :=
  authority.readAuthority.allows relation

/-- `AuthorityContext::can_effect`. -/
def canEffect (authority : AuthorityContext) : Bool :=
  authority.root || authority.capabilities.list.any fun e => e.2.allowsEffect

end AuthorityContext

end Mica
