import Mathlib.Logic.Function.Basic
import Mathlib.Data.List.Basic

/-!
# Lib/BlockFacts — facts about the registers of straight-line code

An analysis that reads a program once, from its first instruction to its last, keeps a fact about each
register.  It forgets them all at an instruction that control may be moved to, and after one that
does not go on to the next.  So a fact before an instruction has been established since the last
such point, and a machine needs no induction over its control flow: wherever it jumps there is
nothing to show (`holds_entry`), and one instruction further there is only what the instruction
itself has written (`holds_next`).
-/

/-- **A forward analysis of blocks**: the instructions that control may be moved to, whether control
stays away from the next instruction, the register that is written, and what is known about it then. -/
structure BlockAnalysis (Op Reg Fact : Type) where
  targets : Op → List ℕ
  leaves : Op → Bool
  subject : Op → Option Reg
  infer : ℕ → Op → (Reg → Option Fact) → Option Fact

namespace BlockAnalysis

variable {Op Reg Fact V : Type} (A : BlockAnalysis Op Reg Fact) (ops : List Op)

/-- A block starts here. -/
def isEntry (i : ℕ) : Bool := i == 0 || ops.any fun op => (A.targets op).contains i

/-- What is known where an instruction starts. -/
def enter (i : ℕ) (facts : Reg → Option Fact) : Reg → Option Fact :=
  if A.isEntry ops i then fun _ => none else facts

section
variable [DecidableEq Reg]

/-- What is known where an instruction ends. -/
def exit (i : ℕ) (op : Op) (facts : Reg → Option Fact) : Reg → Option Fact :=
  if A.leaves op then fun _ => none
  else match A.subject op with
    | some r => Function.update facts r (A.infer i op facts)
    | none => facts

/-- The facts of the instructions from the `i`-th on. -/
def factsFrom : ℕ → (Reg → Option Fact) → List Op → List (Option Fact)
  | _, _, [] => []
  | i, facts, op :: rest =>
    A.infer i op (A.enter ops i facts) :: factsFrom (i + 1) (A.exit i op (A.enter ops i facts)) rest

/-- **The facts of a program**, one for each instruction. -/
def facts : List (Option Fact) := A.factsFrom ops 0 (fun _ => none) ops

/-- What is known before an instruction. -/
def before : ℕ → Reg → Option Fact
  | 0 => fun _ => none
  | i + 1 => A.enter ops (i + 1) (ops[i]?.elim (fun _ => none) fun op => A.exit i op (before i))

variable {A ops} {i : ℕ} {op : Op} {sat : Fact → V → Prop} {regs regs' : Reg → V}

theorem before_entry (h : A.isEntry ops i = true) : A.before ops i = fun _ => none := by
  cases i with
  | zero => rfl
  | succ i => exact if_pos h

theorem enter_of_before {facts : Reg → Option Fact}
    (h : A.enter ops i facts = A.before ops i) (hop : ops[i]? = some op) :
    A.enter ops (i + 1) (A.exit i op (A.enter ops i facts)) = A.before ops (i + 1) := by
  rw [before, hop, h]
  rfl

theorem getElem?_factsFrom : ∀ (k : ℕ) {i : ℕ} {facts : Reg → Option Fact},
    A.enter ops i facts = A.before ops i →
    (A.factsFrom ops i facts (ops.drop i))[k]? =
      ops[i + k]?.map fun op => A.infer (i + k) op (A.before ops (i + k))
  | k, i, facts, h => by
    cases hop : ops[i]? with
    | none =>
      have hlen := List.getElem?_eq_none_iff.mp hop
      rw [List.drop_eq_nil_of_le hlen, List.getElem?_eq_none
        (Nat.le_trans hlen (Nat.le_add_right _ _))]
      rfl
    | some op =>
      obtain ⟨hlt, rfl⟩ := List.getElem?_eq_some_iff.mp hop
      rw [List.drop_eq_getElem_cons hlt, factsFrom]
      cases k with
      | zero =>
        rw [List.getElem?_cons_zero, Nat.add_zero, hop, h]
        rfl
      | succ k =>
        rw [List.getElem?_cons_succ, getElem?_factsFrom k (enter_of_before h hop)]
        simp only [Nat.add_assoc, Nat.add_comm 1 k]

/-- The fact of an instruction is inferred from what is known before it. -/
theorem getElem?_facts (i : ℕ) :
    (A.facts ops)[i]? = ops[i]?.map fun op => A.infer i op (A.before ops i) := by
  have h : (A.factsFrom ops 0 (fun _ => none) (ops.drop 0))[i]? = _ :=
    getElem?_factsFrom i (ite_self _)
  rwa [List.drop_zero, Nat.zero_add] at h

/-! ## What the registers hold -/

/-- The registers hold what is known about them. -/
def Holds (sat : Fact → V → Prop) (facts : Reg → Option Fact) (regs : Reg → V) : Prop :=
  ∀ r, ∀ fact ∈ facts r, sat fact (regs r)

/-- **Nothing is known where a block starts.** -/
theorem holds_entry (h : A.isEntry ops i = true) : Holds sat (A.before ops i) regs := by
  rw [before_entry h]
  exact nofun

/-- **One instruction further**, only the register that it is about may have changed. -/
theorem holds_next (hop : ops[i]? = some op) (h : Holds sat (A.before ops i) regs)
    (hkeep : ∀ r, r ∉ A.subject op → regs' r = regs r)
    (hfact : ∀ r ∈ A.subject op, ∀ fact ∈ A.infer i op (A.before ops i), sat fact (regs' r)) :
    Holds sat (A.before ops (i + 1)) regs' := by
  intro r fact hr
  rw [before, enter, hop] at hr
  split at hr
  · cases hr
  rw [Option.elim_some, exit] at hr
  split at hr
  · cases hr
  cases hsubject : A.subject op with
  | none =>
    rw [hsubject] at hr
    rw [hkeep r (hsubject ▸ nofun)]
    exact h r fact hr
  | some r' =>
    rw [hsubject] at hr
    change fact ∈ Function.update (A.before ops i) r' (A.infer i op (A.before ops i)) r at hr
    by_cases hrr : r = r'
    · subst hrr
      rw [Function.update_self] at hr
      exact hfact r hsubject fact hr
    · rw [Function.update_of_ne hrr] at hr
      rw [hkeep r fun hmem => hrr (Option.some.inj (hmem.symm.trans hsubject))]
      exact h r fact hr

end

end BlockAnalysis
