import Mica.Vm.Results

/-!
# Vm/Facts — the facts of a program hold in every run

What is known before the instruction of the current frame holds of its registers, and each frame
below waits for the register that its callee returns to: the instruction it has called with has said
nothing about it. Handlers, finally blocks and the ends of regions are targets, where nothing is
known, so that a raise or an unwinding has nothing to keep.
-/

open List Option
open Except (ok.inj)

namespace Mica.Vm

/-! ## Points of a program -/

section Points

variable {opcodes : List Opcode} {i : ℕ} {op : Opcode} {registers registers' : Register → Value}

/-- A block starts here. -/
def Entry (opcodes : List Opcode) (i : ℕ) : Prop := kindAnalysis.isEntry opcodes i = true

theorem entry_of_target (hop : opcodes[i]? = some op) {target : ℕ} (h : target ∈ op.targets) :
    Entry opcodes target := by
  refine Bool.or_eq_true_iff.mpr (.inr (any_eq_true.mpr ⟨op, mem_of_getElem? hop, ?_⟩))
  exact contains_iff_mem.mpr h

abbrev kindsBefore (opcodes : List Opcode) (i : ℕ) : Register → Option ValueKind :=
  kindAnalysis.before opcodes i

abbrev typesBefore (opcodes : List Opcode) (i : ℕ) : Register → Option TypeContract :=
  (typeAnalysis (inferKindFacts opcodes)).before opcodes i

def IsOfKind (k : ValueKind) (v : Value) : Prop := v.kind = k

def IsOfType (t : TypeContract) (v : Value) : Prop := t.valueMatchesType v = true

/-- The registers hold what is known before an instruction. -/
structure Known (opcodes : List Opcode) (i : ℕ) (registers : Register → Value) : Prop where
  kinds : BlockAnalysis.Holds IsOfKind (kindsBefore opcodes i) registers
  types : BlockAnalysis.Holds IsOfType (typesBefore opcodes i) registers

theorem Known.entry (h : Entry opcodes i) : Known opcodes i registers :=
  ⟨BlockAnalysis.holds_entry h, BlockAnalysis.holds_entry
    (A := typeAnalysis (inferKindFacts opcodes)) h⟩

/-- An instruction has left its register as it was inferred. -/
structure Fulfils (opcodes : List Opcode) (i : ℕ) (op : Opcode)
    (registers : Register → Value) : Prop where
  kinds : ∀ r ∈ op.kindFactRegister, ∀ k ∈ inferOpcodeKind (kindsBefore opcodes i) op,
    (registers r).kind = k
  types : ∀ r ∈ op.kindFactRegister, ∀ t ∈ inferOpcodeType (typesBefore opcodes i) op,
    t.valueMatchesType (registers r) = true

theorem inferKindFacts_join (hop : opcodes[i]? = some op) :
    (inferKindFacts opcodes)[i]?.join = inferOpcodeKind (kindsBefore opcodes i) op := by
  rw [inferKindFacts, BlockAnalysis.getElem?_facts, hop]
  rfl

/-- What has no type of its own is of its kind. -/
theorem Fulfils.infer (hop : opcodes[i]? = some op) (h : Fulfils opcodes i op registers) :
    ∀ r ∈ op.kindFactRegister, ∀ t ∈ (typeAnalysis (inferKindFacts opcodes)).infer i op
      (typesBefore opcodes i), t.valueMatchesType (registers r) = true := by
  intro r hr t ht
  change (inferOpcodeType (typesBefore opcodes i) op <|>
    ((inferKindFacts opcodes)[i]?.join.map TypeContract.kind)) = some t at ht
  cases hown : inferOpcodeType (typesBefore opcodes i) op with
  | some t' =>
    rw [hown] at ht
    obtain rfl : t' = t := some.inj ht
    exact h.types r hr t' hown
  | none =>
    rw [hown, inferKindFacts_join hop] at ht
    obtain ⟨k, hk, rfl⟩ := map_eq_some_iff.mp ht
    exact decide_eq_true (h.kinds r hr k hk)

/-- **One instruction further**, what is known holds again. -/
theorem Known.next (hop : opcodes[i]? = some op) (h : Known opcodes i registers)
    (hkeep : ∀ r, r ∉ op.kindFactRegister → registers' r = registers r)
    (hfulfils : Fulfils opcodes i op registers') : Known opcodes (i + 1) registers' :=
  ⟨BlockAnalysis.holds_next hop h.kinds hkeep hfulfils.kinds,
    BlockAnalysis.holds_next hop h.types hkeep (hfulfils.infer hop)⟩

/-- **The facts after an instruction hold.** -/
structure FactsHold (p : Program) (i : ℕ) (registers : Register → Value) : Prop where
  kind : ∀ r k, p.kindFactAfter i = some (r, k) → (registers r).kind = k
  type : ∀ r t, p.typeFactAfter i = some (r, t) → t.valueMatchesType (registers r) = true

theorem Fulfils.factsHold {p : Program} (hop : p.opcodes[i]? = some op)
    (h : Fulfils p.opcodes i op registers) : FactsHold p i registers := by
  constructor
  · intro r k hfact
    obtain ⟨k', hk, hfact⟩ := bind_eq_some_iff.mp hfact
    rw [inferKindFacts_join hop] at hk
    obtain ⟨op', hop', hfact⟩ := bind_eq_some_iff.mp hfact
    obtain rfl := some.inj (hop.symm.trans hop')
    obtain ⟨r', hr, hfact⟩ := bind_eq_some_iff.mp hfact
    obtain ⟨rfl, rfl⟩ := Prod.mk.inj (some.inj hfact)
    exact h.kinds r' hr k' hk
  intro r t hfact
  obtain ⟨t', ht, hfact⟩ := bind_eq_some_iff.mp hfact
  rw [inferTypeFacts, BlockAnalysis.getElem?_facts, hop] at ht
  obtain ⟨op', hop', hfact⟩ := bind_eq_some_iff.mp hfact
  obtain rfl := some.inj (hop.symm.trans hop')
  obtain ⟨r', hr, hfact⟩ := bind_eq_some_iff.mp hfact
  obtain ⟨rfl, rfl⟩ := Prod.mk.inj (some.inj hfact)
  exact h.infer hop r' hr t' ht

end Points

/-! ## Frames -/

section Frames

variable (M : Machine)

/-- The instructions that a frame runs. -/
def Machine.opcodes (f : Frame) : List Opcode := (M.program f.program).opcodes

/-- A region leads to targets only. -/
structure TryRegion.Marked (opcodes : List Opcode) (region : TryRegion) : Prop where
  catches : ∀ handler ∈ region.catches, Entry opcodes handler.target
  finally_ : ∀ target ∈ region.finally_, Entry opcodes target
  end_ : Entry opcodes region.end_

/-- A continuation leads to targets only. -/
def FinallyContinuation.Marked (opcodes : List Opcode) : FinallyContinuation → Prop
  | normal target => Entry opcodes target
  | jump target => Entry opcodes target
  | _ => True

namespace Frame

/-- Wherever a frame is unwound to is a target. -/
structure Guarded (f : Frame) : Prop where
  regions : ∀ region ∈ f.tryStack, region.Marked (M.opcodes f)
  pending : ∀ pending ∈ f.pendingFinally, pending.continuation.Marked (M.opcodes f)

/-- A frame that can run. -/
structure Ready (f : Frame) : Prop where
  guarded : f.Guarded M
  known : Known (M.opcodes f) f.ip f.registers

end Frame

/-- The register is written when the instruction is returned to. -/
def Opcode.ReturnsTo (op : Opcode) (r : Register) : Prop :=
  (∃ callee, op = .call r callee) ∨ ∃ request operands, op = .await r request operands

namespace Frame

/-- A frame that waits for the value of a register. -/
structure Awaits (f : Frame) (r : Register) : Prop where
  guarded : f.Guarded M
  instruction : ∃ i op, f.ip = i + 1 ∧ (M.opcodes f)[i]? = some op ∧ op.ReturnsTo r ∧
    Known (M.opcodes f) i f.registers

variable {M} {f f' : Frame} {r : Register} {v : Value}

/-- Only the register of an instruction is written. -/
theorem write_of_notMem {op : Opcode} (hsubject : op.kindFactRegister = some r) {r' : Register}
    (hr' : r' ∉ op.kindFactRegister) : (f.write r v).registers r' = f.registers r' := by
  refine Function.update_of_ne (fun heq => hr' ?_) _ _
  rw [hsubject, heq]
  rfl

/-- **A value that has been waited for** is of no kind or type in particular. -/
theorem Awaits.write (h : f.Awaits M r) :
    (f.write r v).Ready M ∧ FactsHold (M.program f.program) (f.ip - 1) (f.write r v).registers := by
  obtain ⟨i, op, hip, hop, hreturns, hknown⟩ := h.instruction
  have hsubject : op.kindFactRegister = some r := by
    rcases hreturns with ⟨_, rfl⟩ | ⟨_, _, rfl⟩ <;> rfl
  have hfulfils : Fulfils (M.opcodes f) i op (f.write r v).registers := by
    rcases hreturns with ⟨_, rfl⟩ | ⟨_, _, rfl⟩ <;>
      exact ⟨nofun, nofun⟩
  have hkeep : ∀ r', r' ∉ op.kindFactRegister → (f.write r v).registers r' = f.registers r' :=
    fun r' hr' => write_of_notMem hsubject hr'
  refine ⟨⟨⟨h.guarded.regions, h.guarded.pending⟩, ?_⟩, ?_⟩
  · have hnext := hknown.next hop hkeep hfulfils
    rwa [← hip] at hnext
  · rw [hip, Nat.add_sub_cancel]
    exact hfulfils.factsHold hop

/-- **A frame has moved to a target.** -/
structure Lands (M : Machine) (f f' : Frame) : Prop where
  program : f'.program = f.program
  returnRegister : f'.returnRegister = f.returnRegister
  guarded : f'.Guarded M
  entry : Entry (M.opcodes f) f'.ip

theorem Lands.ready (h : Lands M f f') : f'.Ready M := by
  refine ⟨h.guarded, Known.entry ?_⟩
  rw [Machine.opcodes, h.program]
  exact h.entry

theorem Guarded.discard {target : ℕ} (h : f.Guarded M) : (f.discardExitedFinally target).Guarded M :=
  ⟨h.regions, fun _ hmem => h.pending _ ((dropWhile_sublist _).subset hmem)⟩

theorem Guarded.enterFinally {start : ℕ} (h : f.Guarded M) (end_ : ℕ)
    (continuation : FinallyContinuation) (hstart : Entry (M.opcodes f) start)
    (hcontinuation : continuation.Marked (M.opcodes f)) :
    Lands M f (f.enterFinally start end_ continuation) :=
  ⟨rfl, rfl, ⟨h.regions, forall_mem_cons.mpr ⟨hcontinuation, h.pending⟩⟩, hstart⟩

theorem raiseThrough_lands {error : Value} : ∀ {regions : List TryRegion}, f.Guarded M →
    (∀ region ∈ regions, region.Marked (M.opcodes f)) → f.raiseThrough error regions = some f' →
    Lands M f f'
  | region :: regions, hf, hregions, h => by
    obtain ⟨hregion, hrest⟩ := forall_mem_cons.mp hregions
    rw [raiseThrough] at h
    split at h
    · next handler hhandler =>
      have hentry := hregion.catches handler (mem_of_find?_eq_some hhandler)
      obtain rfl := some.inj h
      cases handler.binding
      all_goals
        refine ⟨rfl, rfl, ⟨?_, hf.discard.pending⟩, hentry⟩
        rcases hfinally : region.finally_ with _ | finally_
        · exact hrest
        · exact forall_mem_cons.mpr ⟨⟨fun _ h => absurd h not_mem_nil,
            fun target htarget => hregion.finally_ target (hfinally ▸ htarget),
            hregion.end_⟩, hrest⟩
    · split at h
      · next finally_ hfinally =>
        obtain rfl := some.inj h
        have hguarded : Guarded M ({ f with tryStack := regions }.discardExitedFinally finally_) :=
          Guarded.discard ⟨hrest, hf.pending⟩
        have hlands := hguarded.enterFinally region.end_ (.raise error)
          (hregion.finally_ finally_ hfinally) trivial
        exact ⟨hlands.program, hlands.returnRegister, hlands.guarded, hlands.entry⟩
      · exact raiseThrough_lands hf hrest h

theorem returnThrough_lands {value : Value} : ∀ {regions : List TryRegion},
    (∀ region ∈ regions, region.Marked (M.opcodes f)) → f.returnThrough value regions = some f' →
    Lands M f f'
  | region :: regions, hregions, h => by
    obtain ⟨hregion, hrest⟩ := forall_mem_cons.mp hregions
    rw [returnThrough] at h
    split at h
    · next finally_ hfinally =>
      obtain rfl := some.inj h
      have hguarded : Guarded M { f with tryStack := regions, pendingFinally := [] } :=
        ⟨hrest, nofun⟩
      have hlands := hguarded.enterFinally region.end_ (.return value)
        (hregion.finally_ finally_ hfinally) trivial
      exact ⟨hlands.program, hlands.returnRegister, hlands.guarded, hlands.entry⟩
    · exact returnThrough_lands hrest h

theorem jumpThrough_lands {target : ℕ} (htarget : Entry (M.opcodes f) target) (hf : f.Guarded M) :
    ∀ {regions : List TryRegion}, (∀ region ∈ regions, region.Marked (M.opcodes f)) →
      Lands M f (f.jumpThrough target regions)
  | [], _ => ⟨rfl, rfl, ⟨nofun, hf.pending⟩, htarget⟩
  | region :: regions, hregions => by
    obtain ⟨hregion, hrest⟩ := forall_mem_cons.mp hregions
    rw [jumpThrough]
    split
    · split
      · next finally_ hfinally =>
        have hguarded : Guarded M { f with tryStack := regions } := ⟨hrest, hf.pending⟩
        have hlands := hguarded.enterFinally region.end_ (.jump target)
          (hregion.finally_ finally_ hfinally) htarget
        exact ⟨hlands.program, hlands.returnRegister, hlands.guarded, hlands.entry⟩
      · exact jumpThrough_lands htarget hf hrest
    · exact ⟨rfl, rfl, ⟨hregions, hf.pending⟩, htarget⟩

theorem jumpTo_lands {target : ℕ} (htarget : Entry (M.opcodes f) target) (hf : f.Guarded M) :
    Lands M f (f.jumpTo target) := by
  have hlands := jumpThrough_lands (f := f.discardExitedFinally target) htarget hf.discard hf.regions
  exact ⟨hlands.program, hlands.returnRegister, hlands.guarded, hlands.entry⟩

theorem exitTryRegion_lands (hf : f.Guarded M) (h : f.exitTryRegion = .ok f') : Lands M f f' := by
  unfold exitTryRegion at h
  split at h
  · cases h
  next region regions hregions =>
  obtain ⟨hregion, hrest⟩ := forall_mem_cons.mp (hregions ▸ hf.regions)
  split at h
  · next finally_ hfinally =>
    obtain rfl := ok.inj h
    have hguarded : Guarded M { f with tryStack := regions } := ⟨hrest, hf.pending⟩
    have hlands := hguarded.enterFinally region.end_ (.normal region.end_)
      (hregion.finally_ finally_ hfinally) hregion.end_
    exact ⟨hlands.program, hlands.returnRegister, hlands.guarded, hlands.entry⟩
  · obtain rfl := ok.inj h
    exact ⟨rfl, rfl, ⟨hrest, hf.pending⟩, hregion.end_⟩

end Frame

end Frames

/-! ## States -/

section States

variable (M : Machine)

/-- Each frame waits for what its callee returns. -/
def Resting : Frame → List Frame → Prop
  | _, [] => True
  | callee, caller :: rest =>
    (∃ r, callee.returnRegister = some r ∧ caller.Awaits M r) ∧ Resting caller rest

/-- **The invariant**: the current frame can run, or it waits for the value of the suspension, and the
others wait for their callees. -/
def State.Sound (s : State) : Prop :=
  match s.frames with
  | [] => True
  | f :: rest =>
    (match s.pendingResume with
      | none => f.Ready M
      | some r => f.Awaits M r) ∧ Resting M f rest

/-- A state that keeps the invariant, whose completed instruction has its facts. -/
structure Progress.Sound (progress : Progress) : Prop where
  state : progress.state.Sound M
  facts : ∀ i ∈ progress.completed, ∀ f ∈ progress.state.frames.head?,
    FactsHold (M.program f.program) i f.registers

variable {M} {s : State} {f f' : Frame} {rest : List Frame}

theorem Resting.congr (h : Resting M f rest) (hreturn : f'.returnRegister = f.returnRegister) :
    Resting M f' rest := by
  cases rest with
  | nil => trivial
  | cons caller rest =>
    obtain ⟨⟨r, hr, hawaits⟩, hrest⟩ := h
    exact ⟨⟨r, hreturn.trans hr, hawaits⟩, hrest⟩

namespace State

theorem sound_of_ready (hready : s.pendingResume = none) (hf : f.Ready M) (hrest : Resting M f rest) :
    ({ s with frames := f :: rest } : State).Sound M := by
  change (match s.pendingResume with
    | none => f.Ready M
    | some r => f.Awaits M r) ∧ Resting M f rest
  rw [hready]
  exact ⟨hf, hrest⟩

theorem goOn_sound (hready : s.pendingResume = none) (hlands : Frame.Lands M f f')
    (hrest : Resting M f rest) : (s.goOn f' rest).Sound M :=
  ⟨sound_of_ready hready hlands.ready (hrest.congr hlands.returnRegister), nofun⟩

/-- **A completed instruction** has its facts, and the next one can run. -/
theorem advance_sound {op : Opcode} (hready : s.pendingResume = none) (hf : f.Ready M)
    (hrest : Resting M f rest) (hop : (M.opcodes f)[f.ip]? = some op)
    (hprogram : f'.program = f.program) (hip : f'.ip = f.ip)
    (hreturn : f'.returnRegister = f.returnRegister) (hguarded : f'.Guarded M)
    (hkeep : ∀ r, r ∉ op.kindFactRegister → f'.registers r = f.registers r)
    (hfulfils : Fulfils (M.opcodes f) f.ip op f'.registers) : (s.advance f' rest).Sound M := by
  have hopcodes : M.opcodes f' = M.opcodes f := congrArg (fun p => (M.program p).opcodes) hprogram
  constructor
  · refine sound_of_ready hready ⟨⟨hguarded.regions, hguarded.pending⟩, ?_⟩ (hrest.congr hreturn)
    change Known (M.opcodes f') (f'.ip + 1) f'.registers
    rw [hopcodes, hip]
    exact hf.known.next hop hkeep hfulfils
  rintro i hi _ hhead
  obtain rfl := some.inj hi
  obtain rfl := some.inj hhead
  change FactsHold (M.program f'.program) f'.ip f'.registers
  rw [hprogram, hip]
  exact hfulfils.factsHold hop

/-- What a raise leaves lands at a handler or a finally block. -/
theorem raiseFrames_spec {error : Value} : ∀ {f : Frame} {rest : List Frame} {f' : Frame}
    {rest' : List Frame}, f.Guarded M → Resting M f rest →
    raiseFrames error (f :: rest) = f' :: rest' → ∃ f₀, Frame.Lands M f₀ f' ∧ Resting M f₀ rest'
  | f, rest, f', rest', hf, hrest, h => by
    rw [raiseFrames] at h
    split at h
    · next f'' hraise =>
      obtain ⟨rfl, rfl⟩ := List.cons.inj h
      exact ⟨f, Frame.raiseThrough_lands hf hf.regions hraise, hrest⟩
    cases rest with
    | nil => exact nomatch h
    | cons caller rest =>
      obtain ⟨⟨r, -, hawaits⟩, hrest⟩ := hrest
      exact raiseFrames_spec hawaits.guarded hrest h

theorem beginRaise_sound {error : Value} (hready : s.pendingResume = none) (hf : f.Guarded M)
    (hrest : Resting M f rest) (hframes : s.frames = f :: rest) : (s.beginRaise error).Sound M := by
  unfold beginRaise
  split
  · exact ⟨trivial, nofun⟩
  · next f' rest' hraise =>
    rw [hframes] at hraise
    obtain ⟨f₀, hlands, hrest'⟩ := raiseFrames_spec hf hrest hraise
    exact goOn_sound hready hlands hrest'

theorem returnFromFrame_sound {value : Value} {progress : Progress} (hready : s.pendingResume = none)
    (hf : f.Guarded M) (hrest : Resting M f rest)
    (h : s.returnFromFrame f rest value = .ok progress) : progress.Sound M := by
  unfold returnFromFrame at h
  split at h
  · next f' hreturn =>
    obtain rfl := ok.inj h
    exact goOn_sound hready (Frame.returnThrough_lands hf.regions hreturn) hrest
  split at h
  · next hnone =>
    obtain rfl := ok.inj h
    cases rest with
    | nil => exact ⟨trivial, nofun⟩
    | cons caller rest =>
      obtain ⟨⟨r, hr, -⟩, -⟩ := hrest
      cases hnone.symm.trans hr
  rename_i r hr
  split at h
  · next caller rest =>
    obtain rfl := ok.inj h
    obtain ⟨⟨r', hr', hawaits⟩, hrest⟩ := hrest
    obtain rfl := some.inj (hr.symm.trans hr')
    obtain ⟨hwritten, hfacts⟩ := hawaits.write (v := value)
    refine ⟨sound_of_ready hready hwritten (hrest.congr rfl), ?_⟩
    rintro i hi _ hhead
    obtain rfl := some.inj hi
    obtain rfl := some.inj hhead
    exact hfacts
  · cases h

theorem endFinally_sound {progress : Progress} (hready : s.pendingResume = none) (hf : f.Guarded M)
    (hrest : Resting M f rest) (h : s.endFinally f rest = .ok progress) : progress.Sound M := by
  unfold endFinally at h
  split at h
  · cases h
  next pending others hpending =>
  obtain ⟨hmarked, hothers⟩ := forall_mem_cons.mp (hpending ▸ hf.pending)
  have hguarded : Frame.Guarded M { f with pendingFinally := others } := ⟨hf.regions, hothers⟩
  dsimp only at h
  split at h
  · next target hcontinuation =>
    rw [hcontinuation] at hmarked
    obtain rfl := ok.inj h
    exact goOn_sound hready ⟨rfl, rfl, ⟨hguarded.regions, hguarded.pending⟩, hmarked⟩ (hrest.congr rfl)
  · next target hcontinuation =>
    rw [hcontinuation] at hmarked
    obtain rfl := ok.inj h
    exact goOn_sound hready (Frame.jumpTo_lands hmarked hguarded) (hrest.congr rfl)
  · next error _ =>
    obtain rfl := ok.inj h
    exact beginRaise_sound hready hguarded (hrest.congr rfl) rfl
  · exact returnFromFrame_sound hready hguarded (hrest.congr rfl) h

end State

/-- An instruction names no variable twice. -/
def Opcode.NamesOnce : Opcode → Prop
  | compute _ operation => operation.NamesOnce
  | _ => True

theorem Fulfils.of_none {opcodes : List Opcode} {i : ℕ} {op : Opcode} {registers : Register → Value}
    (h : op.kindFactRegister = none) : Fulfils opcodes i op registers :=
  ⟨fun _ hr => (nomatch h.symm.trans hr), fun _ hr => (nomatch h.symm.trans hr)⟩

theorem Machine.wellFormed (M : Machine) {f : Frame} {i : ℕ} {op : Opcode}
    (hop : (M.opcodes f)[i]? = some op) :
    op.wellFormed (fun p => (M.program p).registerCount) = true := by
  obtain ⟨-, hall⟩ := Bool.and_eq_true_iff.mp (M.accepted f.program)
  exact (Bool.and_eq_true_iff.mp (all_eq_true.mp hall op (mem_of_getElem? hop))).2

variable {progress : Progress}

/-- **An instruction keeps the invariant**, unless it scans a variable twice. -/
theorem execute_sound {host : Host} {op : Opcode} (hready : s.pendingResume = none)
    (hf : f.Ready M) (hrest : Resting M f rest) (hframes : s.frames = f :: rest)
    (hop : (M.opcodes f)[f.ip]? = some op) (honce : op.NamesOnce)
    (h : execute M host s f rest op = .ok progress) : progress.Sound M := by
  have hraise : ∀ error, (s.beginRaise error).Sound M := fun error =>
    State.beginRaise_sound hready hf.guarded hrest hframes
  cases op with
  | compute dst operation =>
    rw [execute] at h
    split at h
    · next v hv =>
      obtain rfl := ok.inj h
      refine State.advance_sound hready hf hrest hop rfl rfl rfl
        ⟨hf.guarded.regions, hf.guarded.pending⟩
        (fun r hr => Frame.write_of_notMem rfl hr) ⟨?_, ?_⟩
      · rintro r hr k hk
        obtain rfl := some.inj hr
        change (Function.update f.registers dst v dst).kind = k
        rw [Function.update_self]
        exact operate_kind hf.known.kinds hv hk
      · rintro r hr t ht
        obtain rfl := some.inj hr
        change t.valueMatchesType (Function.update f.registers dst v dst) = true
        rw [Function.update_self]
        exact operate_type hf.known.types (M.wellFormed hop) honce hv ht
    · next error _ =>
      obtain rfl := ok.inj h
      exact hraise error
    · cases h
  | checkKind value expected site subject =>
    rw [execute] at h
    split at h
    · next hkind =>
      obtain rfl := ok.inj h
      refine State.advance_sound hready hf hrest hop rfl rfl rfl hf.guarded (fun _ _ => rfl) ⟨?_, ?_⟩
      · rintro r hr k hk
        obtain rfl := some.inj hr
        exact hkind.trans (some.inj hk)
      · rintro r hr t ht
        obtain rfl := some.inj hr
        obtain rfl := some.inj ht
        exact decide_eq_true hkind
    · obtain rfl := ok.inj h
      exact hraise _
  | checkType value expected site subject =>
    rw [execute] at h
    split at h
    · next hmatch =>
      obtain rfl := ok.inj h
      refine State.advance_sound hready hf hrest hop rfl rfl rfl hf.guarded (fun _ _ => rfl) ⟨?_, ?_⟩
      · rintro r hr k hk
        obtain rfl := some.inj hr
        exact TypeContract.kind_of_matches hmatch hk
      · rintro r hr t ht
        obtain rfl := some.inj hr
        obtain rfl := some.inj ht
        exact hmatch
    · obtain rfl := ok.inj h
      exact hraise _
  | perform effect operands =>
    rw [execute] at h
    split at h
    · obtain rfl := ok.inj h
      exact State.advance_sound hready hf hrest hop rfl rfl rfl hf.guarded (fun _ _ => rfl)
        (.of_none rfl)
    · obtain rfl := ok.inj h
      exact hraise _
    · cases h
  | branch condition ifTrue ifFalse =>
    obtain rfl := ok.inj h
    refine State.goOn_sound hready ⟨rfl, rfl, ⟨hf.guarded.regions, hf.guarded.pending⟩, ?_⟩
      (hrest.congr rfl)
    refine entry_of_target hop ?_
    change (if truthy (f.registers condition) then ifTrue else ifFalse) ∈ [ifTrue, ifFalse]
    split <;> simp
  | jump target =>
    obtain rfl := ok.inj h
    exact State.goOn_sound hready (Frame.jumpTo_lands (entry_of_target hop mem_cons_self) hf.guarded)
      hrest
  | enterTry catches finally_ end_ =>
    obtain rfl := ok.inj h
    have htarget : ∀ target, target ∈ catches.map CatchHandler.target ++ finally_.toList ++ [end_] →
        Entry (M.opcodes f) target := fun target => entry_of_target hop
    refine State.advance_sound hready hf hrest hop rfl rfl rfl ⟨?_, hf.guarded.pending⟩
      (fun _ _ => rfl)
      (.of_none rfl)
    refine forall_mem_cons.mpr ⟨⟨fun handler hhandler => ?_, fun target hfinally => ?_, ?_⟩,
      hf.guarded.regions⟩
    · exact htarget _ (mem_append_left _ (mem_append_left _ (mem_map_of_mem hhandler)))
    · exact htarget _ (mem_append_left _ (mem_append_right _ (mem_toList.mpr hfinally)))
    · exact htarget _ (mem_append_right _ mem_cons_self)
  | exitTry =>
    obtain ⟨f', hexit, rfl⟩ := map_eq_ok.mp h
    exact State.goOn_sound hready (Frame.exitTryRegion_lands hf.guarded hexit) hrest
  | endFinally => exact State.endFinally_sound hready hf.guarded hrest h
  | loadFunction dst program captures minArity maxArity bindSelf =>
    obtain ⟨⟨functions, id⟩, -, rfl⟩ := map_eq_ok.mp h
    refine State.advance_sound (s := { s with functions := functions }) hready hf hrest hop rfl rfl
      rfl ⟨hf.guarded.regions, hf.guarded.pending⟩
      (fun r hr => Frame.write_of_notMem rfl hr) ⟨?_, nofun⟩
    rintro r hr k hk
    obtain rfl := some.inj hr
    change (Function.update f.registers dst (.function id) dst).kind = k
    rw [Function.update_self]
    exact some.inj hk
  | call dst callee =>
    obtain ⟨⟨program, args⟩, -, h⟩ := bind_eq_ok.mp h
    obtain ⟨callee', hnew, rfl⟩ := map_eq_ok.mp h
    unfold Frame.new at hnew
    split at hnew
    · obtain rfl := ok.inj hnew
      refine ⟨State.sound_of_ready hready ⟨⟨nofun,
        nofun⟩, Known.entry rfl⟩ ⟨⟨dst, rfl, ?_⟩, hrest.congr rfl⟩,
        nofun⟩
      exact ⟨⟨hf.guarded.regions, hf.guarded.pending⟩, f.ip, _, rfl, hop, .inl ⟨callee, rfl⟩, hf.known⟩
    · cases hnew
  | await dst request operands =>
    obtain ⟨_, -, rfl⟩ := map_eq_ok.mp h
    refine ⟨⟨⟨⟨hf.guarded.regions, hf.guarded.pending⟩, f.ip, _, rfl, hop,
      .inr ⟨request, operands, rfl⟩,
      hf.known⟩, hrest.congr rfl⟩, nofun⟩
  | commit | suspend | rollbackRetry =>
    obtain rfl := ok.inj h
    have hsound := State.advance_sound (s := s) hready hf hrest hop rfl rfl rfl hf.guarded
      (fun _ _ => rfl)
      (.of_none rfl)
    exact ⟨hsound.state, hsound.facts⟩
  | «return» value => exact State.returnFromFrame_sound hready hf.guarded hrest h
  | abort error =>
    obtain rfl := ok.inj h
    refine ⟨?_, nofun⟩
    have hsound := State.sound_of_ready hready hf hrest
    rwa [← hframes] at hsound
  | raise error message value =>
    obtain ⟨error', -, rfl⟩ := map_eq_ok.mp h
    exact hraise error'

/-! ## Runs -/

/-- The current instruction names no variable twice. -/
def State.NamesOnce (M : Machine) (s : State) : Prop :=
  ∀ f ∈ s.frames.head?, ∀ op ∈ (M.opcodes f)[f.ip]?, op.NamesOnce

theorem step_sound {host : Host} (hready : s.pendingResume = none)
    (hs : s.Sound M) (honce : s.NamesOnce M) (h : step M host s = .ok progress) :
      progress.Sound M := by
  unfold step at h
  split at h
  · cases h
  next f rest hframes =>
  rw [State.Sound, hframes, hready] at hs
  split at h
  · cases h
  next op hop =>
  exact execute_sound hready hs.1 hs.2 hframes hop (honce f (hframes ▸ rfl) op hop) h

theorem resumeWith_sound {value : Value} (hs : s.Sound M)
    (hwaits : s.pendingResume.isSome) (h : s.resumeWith value = .ok progress) : progress.Sound M := by
  unfold State.resumeWith at h
  split at h
  · next hnone => exact nomatch hnone ▸ hwaits
  next r hr =>
  split at h
  · next f rest hframes =>
    rw [State.Sound, hframes, hr] at hs
    obtain rfl := ok.inj h
    obtain ⟨hwritten, hfacts⟩ := hs.1.write (v := value)
    refine ⟨⟨hwritten, hs.2.congr rfl⟩, ?_⟩
    rintro i hi _ hhead
    obtain rfl := some.inj hi
    obtain rfl := some.inj hhead
    exact hfacts
  · cases h

theorem Machine.Step.sound (h : M.Step s progress) (hs : s.Sound M)
    (honce : s.pendingResume = none → s.NamesOnce M) : progress.Sound M := by
  cases h with
  | run host hready h => exact step_sound hready hs (honce hready) h
  | resume value hwaits h => exact resumeWith_sound hs hwaits h

/-- A step that executes an instruction does not scan a variable twice. -/
def State.ScansOnce (M : Machine) (s : State) : Prop := s.pendingResume = none → s.NamesOnce M

/-- **The invariant holds in every state of a run.** -/
theorem Machine.Reaches.sound {program : ProgramRef}
    (h : M.Reaches (State.ScansOnce M) program s) : s.Sound M := by
  induction h with
  | start =>
    exact ⟨⟨⟨nofun, nofun⟩,
      Known.entry rfl⟩, trivial⟩
  | step _ hfrom hstep ih => exact (hstep.sound ih hfrom).state

end States

/-- **The facts of a program hold**: in a run that scans no variable twice, the register of an
instruction that has been completed -- by going on, by a return to it or by a resumption -- holds a
value of its kind and its type. -/
theorem completed_facts (M : Machine) (program : ProgramRef) {s : State}
    (h : M.Reaches (State.ScansOnce M) program s) (hscans : s.ScansOnce M) {progress : Progress}
    (hstep : M.Step s progress) {i : ℕ} (hi : progress.completed = some i) {f : Frame}
    (hf : progress.state.frames.head? = some f) : FactsHold (M.program f.program) i f.registers :=
  (hstep.sound h.sound hscans).facts i hi f hf

/-! ## A scan on two columns -/

/-- A program that scans a relation of two columns and returns what it has found. -/
def scanProgram (outputs : List QueryBinding) : Program :=
  ⟨1, [.compute 0 (.scanBindings (.ofByte 1) [none, none] outputs), .return (.register 0)]⟩

def scanMachine (outputs : List QueryBinding) : Machine where
  intern _ := ⟨0⟩
  floatNeg := some
  floatArithmetic _ a _ := some a
  program _ := scanProgram outputs
  accepted _ := rfl
  checkMessage _ _ _ _ := ""
  maxCallDepth := 8

/-- The relation has the one row `(true, true)`. -/
def scanHost : Host where
  scanRelation _ _ := .ok [[.bool true, .bool true]]
  query _ _ := .error (.host "")
  callBuiltin _ _ := .error (.host "")
  perform _ _ := .ok ()
  method _ _ := .error (.host "")
  request _ _ := .ok ()

/-- What the scan finds is in its register. -/
theorem scanMachine_step {outputs : List QueryBinding} {v : Value}
    (h : queryRelation [[.bool true, .bool true]] outputs 2 = .ok v) :
    (scanMachine outputs).Step (.start ⟨0⟩) ((State.start ⟨0⟩).advance
      ⟨⟨0⟩, 0, Function.update (fun _ => emptyRelation) 0 v, none, [], []⟩ []) := by
  refine .run scanHost rfl ?_
  have hop : operate (scanMachine outputs) scanHost ⟨⟨0⟩, 0, fun _ => emptyRelation, none, [], []⟩
      (.scanBindings ⟨1, by decide⟩ [none, none] outputs) = .ok v := h
  change execute _ _ _ _ _ (.compute 0 (.scanBindings ⟨1, by decide⟩ [none, none] outputs)) = _
  rw [execute, hop]
  rfl

/-- Two variables are two columns. -/
theorem completed_facts_two_variables : ∃ registers,
    FactsHold (scanProgram [⟨⟨0⟩, 0⟩, ⟨⟨1⟩, 1⟩]) 0 registers := by
  have hquery : queryRelation [[.bool true, .bool true]] [⟨⟨0⟩, 0⟩, ⟨⟨1⟩, 1⟩] 2 =
    .ok (.ofRelation _) := rfl
  exact ⟨_, completed_facts (scanMachine [⟨⟨0⟩, 0⟩, ⟨⟨1⟩, 1⟩]) ⟨0⟩ .start
    (fun _ f hf op hop => by
      obtain rfl := some.inj hf
      obtain rfl := some.inj hop
      exact (by decide : ([⟨0⟩, ⟨1⟩] : List Symbol).Nodup)) (scanMachine_step hquery) rfl rfl⟩

/-- The variable that is scanned in both columns is one column of what is found, and two of its
type. -/
theorem repeated_variable_breaks_fact : ¬ ∀ (M : Machine) (program : ProgramRef) (s : State),
    M.Reaches (fun _ => True) program s → ∀ progress, M.Step s progress →
      ∀ i, progress.completed = some i → ∀ f, progress.state.frames.head? = some f →
        FactsHold (M.program f.program) i f.registers := by
  intro hall
  have hquery : queryRelation [[.bool true, .bool true]] [⟨⟨0⟩, 0⟩, ⟨⟨0⟩, 1⟩] 2 =
    .ok (.ofRelation _) := rfl
  have hfacts := hall (scanMachine [⟨⟨0⟩, 0⟩, ⟨⟨0⟩, 1⟩]) ⟨0⟩ _ .start _ (scanMachine_step hquery)
    0 rfl _ rfl
  have hmatch := hfacts.type 0 (scanType [⟨⟨0⟩, 0⟩, ⟨⟨0⟩, 1⟩]) rfl
  exact absurd ((scanType_matches_iff hquery).mp hmatch) (by decide)

end Mica.Vm
