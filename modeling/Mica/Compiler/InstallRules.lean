import Mica.Kernel.Root
import Mica.Var.Construct

/-!
# Compiler/InstallRules — the rules of a source text

A text of rules is checked and compiled as a whole before the kernel sees any of it
(`compileRules`).  The kernel then installs one rule after the other and publishes each of them; a rule
that it refuses ends the installation and leaves the rules before it active (`installAll_spec`).
-/

open SortedList List
open Option (some.inj)

namespace Mica

abbrev NodeId := ℕ

inductive Literal where
  | int (text : String)
  | float (text : String)
  | string (text : String)
  | bytes (bytes : List UInt8)
  | bool (value : Bool)
  | errorCode (name : String)
  | unit

inductive BinaryOp where
  | eq | ne | lt | le | gt | ge | add | sub | mul | div | rem | and | or | range
  deriving DecidableEq

/-- The `HirExpr`s that are looked at as terms of a rule; `other` stands for the rest. -/
inductive HirTerm where
  | hole (id : NodeId)
  | externalRef (id : NodeId) (name : String)
  | queryVar (id : NodeId) (name : String)
  | identity (id : NodeId) (name : String)
  | symbol (id : NodeId) (name : String)
  | literal (id : NodeId) (value : Literal)
  | negated (id : NodeId) (value : Literal)
  | other (id : NodeId)

structure HirArg where
  id : NodeId
  role : Option String
  splice : Bool
  value : HirTerm

structure HirRelationAtom where
  id : NodeId
  name : String
  args : List HirArg
  negated : Bool

structure HirRuleGuard where
  id : NodeId
  op : BinaryOp
  left : HirTerm
  right : HirTerm

inductive HirRuleBodyItem where
  | atom (atom : HirRelationAtom)
  | guard (guard : HirRuleGuard)

inductive CompileError where
  | diagnostics (errors : List CompileError)
  | parseErrors (errors : List String)
  | semanticDiagnostic (message : String)
  | unsupported (node : NodeId) (message : String)
  | unknownRelation (node : NodeId) (name : String)
  | unknownIdentity (node : NodeId) (name : String)
  | invalidLiteral (node : NodeId) (message : String)
  | kernel (error : KernelError)

/-- The items of a text.  Of an expression or a method only what the validator says of it matters. -/
inductive HirItem where
  | typeAlias (id : NodeId)
  | relationRule (id : NodeId) (head : HirRelationAtom) (body : List HirRuleBodyItem)
  | expr (id : NodeId) (errors : List CompileError)
  | method (id : NodeId) (errors : List CompileError)

structure SemanticProgram where
  parseErrors : List String
  diagnostics : List String
  items : List HirItem

structure CompileContext where
  relation : String → Option RelationId
  identity : String → Option Identity

def HirTerm.exprId : HirTerm → NodeId
  | .hole id | .externalRef id _ | .queryVar id _ | .identity id _ | .symbol id _ | .literal id _
  | .negated id _ | .other id => id

/-- `item_id`. -/
def HirItem.itemId : HirItem → NodeId
  | .typeAlias id | .relationRule id _ _ | .expr id _ | .method id _ => id

def HirItem.isRelationRule : HirItem → Bool
  | .relationRule .. => true
  | _ => false

def HirItem.isTypeAlias : HirItem → Bool
  | .typeAlias _ => true
  | _ => false

namespace CompileContext

variable (context : CompileContext)

/-! ## Names -/

/-- `validate_rule_term`. -/
def validateRuleTerm : HirTerm → List CompileError
  | .identity id name => if (context.identity name).isNone then [.unknownIdentity id name] else []
  | _ => []

/-- `validate_rule_atom`. -/
def validateRuleAtom (atom : HirRelationAtom) : List CompileError :=
  (if (context.relation atom.name).isNone then [.unknownRelation atom.id atom.name] else []) ++
    atom.args.flatMap fun arg => context.validateRuleTerm arg.value

/-- `validate_item`. -/
def validateItem : HirItem → List CompileError
  | .typeAlias _ => []
  | .expr _ errors => errors
  | .method _ errors => errors
  | .relationRule _ head body =>
    context.validateRuleAtom head ++ body.flatMap fun
      | .atom atom => context.validateRuleAtom atom
      | .guard guard => context.validateRuleTerm guard.left ++ context.validateRuleTerm guard.right

/-- `return_context_errors`. -/
def returnContextErrors : List CompileError → Except CompileError Unit
  | [] => .ok ()
  | [e] => .error e
  | errors => .error (.diagnostics errors)

/-! ## Rules -/

variable (intern : String → Symbol) (literalValue : NodeId → Literal → Except CompileError Value)

/-- The literal of a number with a minus sign. -/
def negatedLiteral : Literal → Option Literal
  | .int text => some (.int ("-" ++ text))
  | .float text => some (.float ("-" ++ text))
  | _ => none

/-- `compile_rule_term`; `literalValue` is `literal_value_for_rule`. -/
def compileRuleTerm : HirTerm → Except CompileError Term
  | .hole id => .ok (.var (intern ("\x00hole:" ++ toString id)))
  | .externalRef _ name | .queryVar _ name => .ok (.var (intern name))
  | .identity id name =>
    match context.identity name with
    | none => .error (.unknownIdentity id name)
    | some identity => .ok (.value (Value.identity identity))
  | .symbol _ name => .ok (.value (Value.symbol (intern name)))
  | .literal id value => (literalValue id value).map Term.value
  | .negated id value =>
    match negatedLiteral value with
    | none => .error (.unsupported id "relation rule terms must be variables or literal values")
    | some literal => (literalValue id literal).map Term.value
  | .other id => .error (.unsupported id "relation rule terms must be variables or literal values")

/-- `compile_rule_terms`. -/
def compileRuleTerms (args : List HirArg) : Except CompileError (List Term) :=
  args.mapM fun arg =>
    if arg.role.isSome || arg.splice then
      .error (.unsupported arg.id "relation rule atoms do not support named or spliced arguments")
    else context.compileRuleTerm intern literalValue arg.value

/-- `compile_rule_atom`. -/
def compileRuleAtom (atom : HirRelationAtom) : Except CompileError Atom :=
  match context.relation atom.name with
  | none => .error (.unknownRelation atom.id atom.name)
  | some relation =>
    match context.compileRuleTerms intern literalValue atom.args with
    | .error e => .error e
    | .ok terms => .ok ⟨relation, terms, atom.negated⟩

/-- The comparison of a guard. -/
def comparisonOp : BinaryOp → Option RuleComparisonOp
  | .eq => some .eq
  | .ne => some .ne
  | .lt => some .lt
  | .le => some .le
  | .gt => some .gt
  | .ge => some .ge
  | _ => none

/-- `compile_rule_guard`. -/
def compileRuleGuard (guard : HirRuleGuard) : Except CompileError RuleBodyItem :=
  match comparisonOp guard.op with
  | none => .error (.unsupported guard.id "relation rule guards only support comparisons")
  | some op =>
    match context.compileRuleTerm intern literalValue guard.left with
    | .error e => .error e
    | .ok left =>
      match context.compileRuleTerm intern literalValue guard.right with
      | .error e => .error e
      | .ok right => .ok (.guard ⟨op, left, right⟩)

def compileRuleBodyItem : HirRuleBodyItem → Except CompileError RuleBodyItem
  | .atom atom => (context.compileRuleAtom intern literalValue atom).map .atom
  | .guard guard => context.compileRuleGuard intern literalValue guard

/-- `compile_rule_item`. -/
def compileRuleItem : HirItem → Except CompileError Rule
  | .relationRule id head body =>
    match context.relation head.name with
    | none => .error (.unknownRelation head.id head.name)
    | some headRelation =>
      match context.compileRuleTerms intern literalValue head.args with
      | .error e => .error e
      | .ok headTerms =>
        match body.mapM (context.compileRuleBodyItem intern literalValue) with
        | .error e => .error e
        | .ok body =>
          if body.isEmpty then
            .error (.unsupported id "relation rules require at least one body atom")
          else .ok ⟨headRelation, headTerms, body⟩
  | item => .error (.unsupported item.itemId "only relation rules can be installed as rules")

/-- `install_rules` before it calls the kernel; `none` if the text has no rules. -/
def compileRules (semantic : SemanticProgram) : Except CompileError (Option (List Rule)) :=
  if semantic.parseErrors ≠ [] then .error (.parseErrors semantic.parseErrors)
  else
    match semantic.diagnostics with
    | diagnostic :: _ => .error (.semanticDiagnostic diagnostic)
    | [] =>
      match returnContextErrors (semantic.items.flatMap context.validateItem) with
      | .error e => .error e
      | .ok () =>
        if !semantic.items.any HirItem.isRelationRule then .ok none
        else
          match semantic.items.find? fun item => !(item.isRelationRule || item.isTypeAlias) with
          | some item => .error (.unsupported item.itemId
              "relation rule definitions cannot be mixed with executable task code yet")
          | none =>
            ((semantic.items.filter HirItem.isRelationRule).mapM
              (context.compileRuleItem intern literalValue)).map some

end CompileContext

/-! ## Installation -/

/-- What the installation of a rule asks of others: how the search for the changes of derived relations
ends, and what the provider answers. -/
structure InstallAnswer where
  settled : Except KernelError Unit
  persisted : Except String Unit

def InstallAnswer.Granted (answer : InstallAnswer) : Prop :=
  answer.settled = .ok () ∧ answer.persisted = .ok ()

/-- The definition that a commit has installed. -/
def RootCommit.installedRules (commit : RootCommit) : List RuleDefinition :=
  commit.facts.catalogChanges.filterMap fun
    | .ruleInstalled definition => some definition
    | _ => none

namespace RelationKernel

variable {M : Type → Type} [ByteMap M]

/-- The loop of `install_rules` over the compiled rules; `none` if a search for an id never ends. -/
def installAll (source : String) : List (Rule × InstallAnswer) → RelationKernel M →
    Option (RelationKernel M × Except CompileError (List RuleDefinition))
  | [], kernel => some (kernel, .ok [])
  | (rule, answer) :: rest, kernel =>
    match kernel.installRule rule source answer.settled answer.persisted with
    | none => none
    | some (kernel, .error e) => some (kernel, .error (.kernel e))
    | some (kernel, .ok commit) =>
      match installAll source rest kernel with
      | none => none
      | some (kernel, .error e) => some (kernel, .error e)
      | some (kernel, .ok definitions) => some (kernel, .ok (commit.installedRules ++ definitions))

/-- The rules of a text with what the installation of each asks of others. -/
def answered (rules : List Rule) (answers : ℕ → InstallAnswer) : List (Rule × InstallAnswer) :=
  rules.mapIdx fun i rule => (rule, answers i)

/-- `install_rules`; `answers` is what the installation of each rule asks of others. -/
def installRules (intern : String → Symbol) (literalValue :
    NodeId → Literal → Except CompileError Value)
    (semantic : SemanticProgram) (context : CompileContext) (source : String)
    (answers : ℕ → InstallAnswer) (kernel : RelationKernel M) :
    Option (RelationKernel M × Except CompileError (Option (List RuleDefinition))) :=
  match context.compileRules intern literalValue semantic with
  | .error e => some (kernel, .error e)
  | .ok none => some (kernel, .ok none)
  | .ok (some rules) =>
    match kernel.installAll source (answered rules answers) with
    | none => none
    | some (kernel, .error e) => some (kernel, .error e)
    | some (kernel, .ok definitions) => some (kernel, .ok (some definitions))

end RelationKernel

/-! ## Ids for new rules -/

/-- The ids that are tried are different, as long as there are more ids than tries. -/
theorem generatedRuleId_injOn (rules : List RuleDefinition) {i j : ℕ} (hi : i ≤ maxPayload)
    (hj : j ≤ maxPayload) (h : generatedRuleId rules i = generatedRuleId rules j) : i = j := by
  have hraw := congrArg (fun id => id.raw.toNat) h
  simp only [generatedRuleId, UInt64.toNat_ofNat'] at hraw
  simp only [maxPayload] at hraw hi hj
  omega

/-- **Fewer rules than ids leave one free.** -/
theorem exists_nextRuleId {rules : List RuleDefinition} (h : rules.length ≤ maxPayload) :
    ∃ id, nextRuleId rules = some id := by
  refine Option.isSome_iff_exists.mp ?_
  by_contra hnone
  rw [Option.not_isSome_iff_eq_none, nextRuleId, find?_eq_none] at hnone
  have hnodup : ((List.range (rules.length + 1)).map (generatedRuleId rules)).Nodup := by
    refine List.Nodup.map_on (fun i hi j hj heq => ?_) nodup_range
    have hi := mem_range.mp hi
    have hj := mem_range.mp hj
    exact generatedRuleId_injOn rules (by omega) (by omega) heq
  have hsubset : (List.range (rules.length + 1)).map (generatedRuleId rules) ⊆
      rules.map RuleDefinition.id := by
    intro id hid
    have htaken := hnone id hid
    simp only [all_eq_true, decide_eq_true_eq, not_forall, not_not] at htaken
    obtain ⟨rule, hrule, heq⟩ := htaken
    exact heq ▸ mem_map_of_mem hrule
  have hlen := (hnodup.subperm hsubset).length_le
  rw [length_map, length_map, length_range] at hlen
  omega

/-! ## What the kernel accepts -/

namespace RuleSet

variable {rules rules' : List Rule}

theorem DependsOn.mono {negated : Bool} {x y : RelationId} (h : rules ⊆ rules')
    (hdep : DependsOn ⟨rules⟩ negated x y) : DependsOn ⟨rules'⟩ negated x y := by
  obtain ⟨rule, hrule, hrest⟩ := hdep
  exact ⟨rule, h hrule, hrest⟩

/-- More rules have more cycles. -/
theorem NegativeCycle.mono (h : rules ⊆ rules') (hcycle : NegativeCycle ⟨rules⟩) :
    NegativeCycle ⟨rules'⟩ := by
  obtain ⟨head, body, hdep, hreaches⟩ := hcycle
  exact ⟨head, body, hdep.mono h,
    hreaches.lift id fun _ _ ⟨negated, hstep⟩ => ⟨negated, hstep.mono h⟩⟩

end RuleSet

theorem validateActive_iff {rules : List RuleDefinition} :
    validateActive rules = .ok () ↔ ¬ RuleSet.NegativeCycle ⟨activeRules rules⟩ := by
  rw [← RuleSet.validateStratified_iff, validateActive]
  split
  · next e he =>
    rw [he]
    exact ⟨nofun, nofun⟩
  · next hok => exact ⟨fun _ => hok, fun _ => rfl⟩

theorem activeRules_concat (rules : List RuleDefinition) (definition : RuleDefinition)
    (h : definition.active = true) :
    activeRules (rules ++ [definition]) = activeRules rules ++ [definition.rule] := by
  simp [activeRules, filter_append, h]

namespace RelationKernel

variable {M : Type → Type} [ByteMap M] {kernel : RelationKernel M} {source : String}

/-- A catalogue change is published when the provider has persisted it. -/
theorem commitCatalog_eq (relations : SortedMap RelationId (RelationState M))
    (rules : List RuleDefinition) (change : CatalogChange) (persisted : Except String Unit)
    (kernel : RelationKernel M) :
    kernel.commitCatalog relations rules change persisted =
      match persisted with
      | .error message => (kernel, .error (.persistence message))
      | .ok () => (⟨catalogRoot relations rules change kernel.root,
          kernel.log ++ [catalogCommit change kernel.root]⟩,
        .ok (catalogCommit change kernel.root)) := by
  unfold commitCatalog publish persistentCommit
  cases persisted <;> rfl

/-- The rule that is next is accepted. -/
structure AcceptsRule (facts : Snapshot M) (rule : Rule) (answer : InstallAnswer) : Prop where
  valid : validateRuleAgainstRelations facts.relations rule = .ok ()
  acyclic : ¬ RuleSet.NegativeCycle ⟨activeRules facts.rules ++ [rule]⟩
  granted : answer.Granted

/-- A kernel with one more rule. -/
def withDefinition (kernel : RelationKernel M) (definition : RuleDefinition) (log : List RootCommit) :
    RelationKernel M :=
  ⟨catalogRoot kernel.root.facts.relations (kernel.root.facts.rules ++ [definition])
    (.ruleInstalled definition) kernel.root, log⟩

/-- **A rule is installed when it is accepted, and else nothing changes.** -/
theorem installRule_spec (hids : kernel.root.facts.rules.length ≤ maxPayload) (rule : Rule)
    (source : String) (answer : InstallAnswer) :
    (¬ AcceptsRule kernel.root.facts rule answer ∧ ∃ e,
      kernel.installRule rule source answer.settled answer.persisted = some (kernel, .error e)) ∨
    (AcceptsRule kernel.root.facts rule answer ∧
      ∃ (definition : RuleDefinition) (log : List RootCommit),
        definition.rule = rule ∧ definition.source = source ∧ definition.active = true ∧
          kernel.installRule rule source answer.settled answer.persisted =
            some (kernel.withDefinition definition log,
              .ok (catalogCommit (.ruleInstalled definition) kernel.root))) := by
  obtain ⟨id, hid⟩ := exists_nextRuleId hids
  have hactive := activeRules_concat kernel.root.facts.rules ⟨id, rule, source, true⟩ rfl
  unfold installRule
  dsimp only
  rw [hid]
  rcases hvalid : validateRuleAgainstRelations kernel.root.facts.relations rule with e | _
  · exact .inl ⟨fun h => (nomatch hvalid.symm.trans h.valid), e, rfl⟩
  dsimp only
  cases hcycle : validateActive (kernel.root.facts.rules ++ [⟨id, rule, source, true⟩]) with
  | error e =>
    refine .inl ⟨fun h => ?_, e, rfl⟩
    have hok := validateActive_iff.mpr (hactive ▸ h.acyclic)
    rw [hcycle] at hok
    cases hok
  | ok _ =>
    dsimp only
    rcases hsettled : answer.settled with e | _
    · exact .inl ⟨fun h => (nomatch hsettled.symm.trans h.granted.1), e, rfl⟩
    dsimp only
    rw [commitCatalog_eq]
    rcases hpersisted : answer.persisted with _ | _
    · exact .inl ⟨fun h => (nomatch hpersisted.symm.trans h.granted.2), _, rfl⟩
    refine .inr ⟨⟨hvalid, ?_, hsettled, hpersisted⟩, ⟨id, rule, source, true⟩, _, rfl, rfl, rfl,
      rfl⟩
    rw [← hactive]
    exact validateActive_iff.mp hcycle

/-- The first rules of a text are accepted: their relations are known, with as many columns, no
cycle of these and the active rules passes through a negated atom, and nobody else refuses. -/
structure AcceptsFirst (facts : Snapshot M) (rules : List (Rule × InstallAnswer)) (k : ℕ) : Prop where
  valid : ∀ e ∈ rules.take k, validateRuleAgainstRelations facts.relations e.1 = .ok ()
  acyclic : ¬ RuleSet.NegativeCycle ⟨activeRules facts.rules ++ (rules.take k).map Prod.fst⟩
  granted : ∀ e ∈ rules.take k, e.2.Granted

/-- The first rule, and then the others with it. -/
theorem acceptsFirst_cons (facts next : Snapshot M) {rule : Rule} (answer : InstallAnswer)
    (rest : List (Rule × InstallAnswer)) (hrelations : next.relations = facts.relations)
    (hrules : activeRules next.rules = activeRules facts.rules ++ [rule]) (k : ℕ) :
    AcceptsFirst facts ((rule, answer) :: rest) (k + 1) ↔
      AcceptsRule facts rule answer ∧ AcceptsFirst next rest k := by
  have hactive : activeRules facts.rules ++ (((rule, answer) :: rest).take (k + 1)).map Prod.fst =
      activeRules next.rules ++ (rest.take k).map Prod.fst := by
    rw [hrules, take_succ_cons, map_cons, append_assoc, singleton_append]
  constructor
  · rintro ⟨hvalid, hacyclic, hgranted⟩
    rw [hactive] at hacyclic
    rw [take_succ_cons] at hvalid hgranted
    obtain ⟨hfirst, hothers⟩ := forall_mem_cons.mp hvalid
    obtain ⟨hgrant, hgrants⟩ := forall_mem_cons.mp hgranted
    refine ⟨⟨hfirst, fun hcycle => hacyclic (hcycle.mono ?_), hgrant⟩, ⟨?_, hacyclic, hgrants⟩⟩
    · rw [hrules]
      exact subset_append_left _ _
    · rwa [hrelations]
  · rintro ⟨⟨hfirst, -, hgrant⟩, ⟨hothers, hacyclic, hgrants⟩⟩
    refine ⟨?_, hactive ▸ hacyclic, ?_⟩
    · rw [take_succ_cons, ← hrelations]
      exact forall_mem_cons.mpr ⟨hrelations ▸ hfirst, hothers⟩
    · rw [take_succ_cons]
      exact forall_mem_cons.mpr ⟨hgrant, hgrants⟩

/-- Who accepts more rules accepts fewer. -/
theorem AcceptsFirst.mono {facts : Snapshot M} {rules : List (Rule × InstallAnswer)} {j k : ℕ}
    (h : AcceptsFirst facts rules k) (hjk : j ≤ k) : AcceptsFirst facts rules j := by
  have hsubset : rules.take j ⊆ rules.take k := (take_prefix_take_left hjk).subset
  refine ⟨fun e he => h.valid e (hsubset he), fun hcycle => h.acyclic (hcycle.mono ?_),
    fun e he => h.granted e (hsubset he)⟩
  intro rule hrule
  rcases mem_append.mp hrule with hrule | hrule
  · exact mem_append_left _ hrule
  · exact mem_append_right _ (map_subset _ hsubset hrule)

/-- The first rule alone. -/
theorem acceptsFirst_one {facts : Snapshot M} {rule : Rule} {answer : InstallAnswer}
    {rest : List (Rule × InstallAnswer)} :
    AcceptsFirst facts ((rule, answer) :: rest) 1 ↔ AcceptsRule facts rule answer := by
  constructor
  · rintro ⟨hvalid, hacyclic, hgranted⟩
    exact ⟨hvalid _ mem_cons_self, hacyclic, hgranted _ mem_cons_self⟩
  · rintro ⟨hvalid, hacyclic, hgranted⟩
    refine ⟨fun e he => ?_, hacyclic, fun e he => ?_⟩
    · exact mem_singleton.mp he ▸ hvalid
    · exact mem_singleton.mp he ▸ hgranted

/-- What a kernel has become after some rules were installed. -/
structure Installed (kernel kernel' : RelationKernel M) (source : String)
    (definitions : List RuleDefinition) : Prop where
  rules : kernel'.root.facts.rules = kernel.root.facts.rules ++ definitions
  relations : kernel'.root.facts.relations = kernel.root.facts.relations
  version : kernel'.root.facts.version = kernel.root.facts.version + definitions.length
  active : ∀ d ∈ definitions, d.active = true ∧ d.source = source

theorem Installed.nil (kernel : RelationKernel M) (source : String) :
    Installed kernel kernel source [] where
  rules := (append_nil _).symm
  relations := rfl
  version := rfl
  active := nofun

theorem Installed.cons {kernel' : RelationKernel M} {definition : RuleDefinition}
    {definitions : List RuleDefinition} {log : List RootCommit}
    (h : Installed (kernel.withDefinition definition log) kernel' source definitions)
    (hactive : definition.active = true) (hsource : definition.source = source) :
    Installed kernel kernel' source (definition :: definitions) where
  rules := by
    rw [h.rules]
    exact append_assoc _ _ _
  relations := h.relations
  version := by
    rw [h.version, length_cons]
    exact Nat.add_right_comm _ _ _
  active := forall_mem_cons.mpr ⟨⟨hactive, hsource⟩, h.active⟩

/-- **The loop installs the rules up to the first that is refused.** -/
theorem installAll_spec (source : String) : ∀ (rules : List (Rule × InstallAnswer))
    (kernel : RelationKernel M), kernel.root.facts.rules.length + rules.length ≤ maxPayload →
    ∃ kernel' definitions, Installed kernel kernel' source definitions ∧
      definitions.map RuleDefinition.rule <+: rules.map Prod.fst ∧
      (∀ k, 0 < k → k ≤ rules.length →
        (AcceptsFirst kernel.root.facts rules k ↔ k ≤ definitions.length)) ∧
      ((definitions.length = rules.length ∧
          kernel.installAll source rules = some (kernel', .ok definitions)) ∨
        (definitions.length < rules.length ∧ ∃ e,
          kernel.installAll source rules = some (kernel', .error e)))
  | [], kernel, _ => by
    refine ⟨kernel, [], .nil kernel source, prefix_rfl, fun k hpos hle => ?_, .inl ⟨rfl, rfl⟩⟩
    exact absurd hle (Nat.not_le.mpr hpos)
  | (rule, answer) :: rest, kernel, hids => by
    rw [length_cons] at hids
    have hroom : kernel.root.facts.rules.length ≤ maxPayload := by omega
    unfold installAll
    rcases installRule_spec hroom rule source answer with
      ⟨hrefused, e, hinstall⟩ | ⟨haccepts, definition, log, rfl, hsource, hactive, hinstall⟩
    · refine ⟨kernel, [], .nil kernel source, nil_prefix, fun k hpos hle => ?_,
        .inr ⟨Nat.succ_pos _, .kernel e, by rw [hinstall]⟩⟩
      exact ⟨fun h => absurd (acceptsFirst_one.mp (h.mono hpos)) hrefused,
        fun hzero => absurd hpos (Nat.not_lt.mpr hzero)⟩
    · have hmore : (kernel.root.facts.rules ++ [definition]).length + rest.length ≤ maxPayload := by
        rw [length_append, length_singleton]
        omega
      obtain ⟨kernel', definitions, hinstalled, hprefix, haccepted, hresult⟩ :=
        installAll_spec source rest (kernel.withDefinition definition log) hmore
      refine ⟨kernel', definition :: definitions, hinstalled.cons hactive hsource, ?_,
        fun k hpos hle => ?_,
        ?_⟩
      · rw [map_cons, map_cons]
        exact cons_prefix_cons.mpr ⟨rfl, hprefix⟩
      · obtain ⟨k, rfl⟩ := Nat.exists_eq_succ_of_ne_zero hpos.ne'
        rw [length_cons] at hle ⊢
        rcases Nat.eq_zero_or_pos k with rfl | hk
        · exact ⟨fun _ => Nat.succ_le_succ (Nat.zero_le _), fun _ => acceptsFirst_one.mpr haccepts⟩
        have hnext := haccepted k hk (by omega)
        have hactives := activeRules_concat kernel.root.facts.rules definition hactive
        have hcons := acceptsFirst_cons kernel.root.facts
          (kernel.withDefinition definition log).root.facts answer rest rfl hactives k
        rw [Nat.succ_eq_add_one, hcons, hnext, and_iff_right haccepts]
        exact Nat.succ_le_succ_iff.symm
      · rw [hinstall]
        dsimp only
        rcases hresult with ⟨hlen, hall⟩ | ⟨hlen, e, hall⟩
        · refine .inl ⟨by rw [length_cons, length_cons, hlen], ?_⟩
          rw [hall]
          rfl
        · refine .inr ⟨by rw [length_cons, length_cons]; omega, e, ?_⟩
          rw [hall]

/-! ## All or nothing -/

/-- Every rule of the text is installed and its definition is returned, or there is an error and the
kernel has the active rules, the version and the facts that it had; what is derived comes from
these. -/
def AllOrNothing (kernel : RelationKernel M) (source : String)
    (compiled : Except CompileError (Option (List Rule)))
    (result : Option (RelationKernel M × Except CompileError (Option (List RuleDefinition)))) : Prop :=
  (∃ kernel' e, result = some (kernel', .error e) ∧
    activeRules kernel'.root.facts.rules = activeRules kernel.root.facts.rules ∧
    kernel'.root.facts.version = kernel.root.facts.version ∧
    kernel'.root.facts.relations = kernel.root.facts.relations) ∨
  (compiled = .ok none ∧ result = some (kernel, .ok none)) ∨
  ∃ rules kernel' definitions, compiled = .ok (some rules) ∧
    result = some (kernel', .ok (some definitions)) ∧ Installed kernel kernel' source definitions ∧
    definitions.map RuleDefinition.rule = rules

variable {intern : String → Symbol} {literalValue : NodeId → Literal → Except CompileError Value}

/-- The answers change none of the rules. -/
theorem map_fst_answered (rules : List Rule) (answers : ℕ → InstallAnswer) :
    (answered rules answers).map Prod.fst = rules := by
  refine ext_getElem? fun i => ?_
  rw [answered, getElem?_map, getElem?_mapIdx, Option.map_map]
  exact congrFun Option.map_id _

/-- **The installation of rules is all or nothing exactly when the first rule is refused or all are
accepted**: rules that were published before a refusal stay. -/
theorem installRules_allOrNothing_iff (semantic : SemanticProgram) (context : CompileContext)
    (answers : ℕ → InstallAnswer) (kernel : RelationKernel M)
    (hids : ∀ rules, context.compileRules intern literalValue semantic = .ok (some rules) →
      kernel.root.facts.rules.length + rules.length ≤ maxPayload) :
    AllOrNothing kernel source (context.compileRules intern literalValue semantic)
        (kernel.installRules intern literalValue semantic context source answers) ↔
      ∀ rules, context.compileRules intern literalValue semantic = .ok (some rules) →
        ¬ AcceptsFirst kernel.root.facts (answered rules answers) 1 ∨
          AcceptsFirst kernel.root.facts (answered rules answers) rules.length := by
  unfold installRules
  rcases hcompiled : context.compileRules intern literalValue semantic with e | compiled
  · exact ⟨fun _ => nofun, fun _ => .inl ⟨kernel, e, rfl, rfl, rfl, rfl⟩⟩
  cases compiled with
  | none => exact ⟨fun _ => nofun, fun _ => .inr (.inl ⟨rfl, rfl⟩)⟩
  | some rules =>
    have hlen : (answered rules answers).length = rules.length := length_mapIdx
    obtain ⟨kernel', definitions, hinstalled, hprefix, haccepted, hresult⟩ :=
      installAll_spec source (answered rules answers) kernel (hlen ▸ hids rules hcompiled)
    rw [map_fst_answered] at hprefix
    rw [hlen] at haccepted hresult
    have hiff : (∀ rules', Except.ok (some rules) = (Except.ok (some rules') :
          Except CompileError (Option (List Rule))) →
        ¬ AcceptsFirst kernel.root.facts (answered rules' answers) 1 ∨
          AcceptsFirst kernel.root.facts (answered rules' answers) rules'.length) ↔
        definitions = [] ∨ definitions.length = rules.length := by
      rcases Nat.eq_zero_or_pos rules.length with hzero | hpos
      · have hnil := hprefix.length_le
        rw [length_map, hzero, Nat.le_zero, length_eq_zero_iff] at hnil
        refine ⟨fun _ => .inl hnil, fun _ rules' heq => ?_⟩
        obtain rfl := some.inj (Except.ok.inj heq)
        obtain rfl := length_eq_zero_iff.mp hzero
        exact (em (AcceptsFirst kernel.root.facts [] 1)).symm.imp_right fun h => h.mono (Nat.zero_le _)
      have hlast := hprefix.length_le
      rw [length_map] at hlast
      have hfirst := haccepted 1 Nat.one_pos hpos
      have hall := haccepted rules.length hpos le_rfl
      constructor
      · intro h
        refine (h rules rfl).imp (fun hnot => ?_) fun haccepts => le_antisymm hlast (hall.mp haccepts)
        rw [hfirst, Nat.not_le, Nat.lt_one_iff] at hnot
        exact length_eq_zero_iff.mp hnot
      rintro h rules' heq
      obtain rfl := some.inj (Except.ok.inj heq)
      refine h.imp (fun hnil => ?_) fun heq => hall.mpr heq.ge
      rw [hfirst, hnil]
      exact Nat.not_succ_le_zero 0
    rw [hiff]
    rcases hresult with ⟨hdone, hall⟩ | ⟨hshort, e, hall⟩
    · refine ⟨fun _ => .inr hdone, fun _ => .inr (.inr ⟨rules, kernel', definitions, rfl, ?_,
        hinstalled, hprefix.eq_of_length (by rw [length_map, hdone])⟩)⟩
      dsimp only
      rw [hall]
    constructor
    · rintro (⟨kernel'', e', hsome, -, hversion, -⟩ | ⟨hnone, -⟩ | ⟨_, _, _, _, hsome, -⟩)
      · dsimp only at hsome
        rw [hall] at hsome
        obtain ⟨rfl, -⟩ := Prod.mk.inj (some.inj hsome)
        rw [hinstalled.version] at hversion
        exact .inl (length_eq_zero_iff.mp (by omega))
      · cases hnone
      · dsimp only at hsome
        rw [hall] at hsome
        cases hsome
    · rintro (rfl | hdone)
      · refine .inl ⟨kernel', e, ?_, ?_, hinstalled.version, hinstalled.relations⟩
        · dsimp only
          rw [hall]
        · rw [hinstalled.rules, append_nil]
      · omega

/-- Relations `A`, `B` and `C` with one column each. -/
def threeRelations : RelationKernel Entries :=
  [RelationMetadata.new (.ofByte 1) ⟨1⟩ 1, .new (.ofByte 2) ⟨2⟩ 1,
    .new (.ofByte 3) ⟨3⟩ 1].foldl
    (fun kernel metadata => (kernel.createRelation metadata (.ok ())).1) RelationKernel.new

/-- Their names. -/
def threeNames : CompileContext where
  relation
    | "A" => some (.ofByte 1)
    | "B" => some (.ofByte 2)
    | "C" => some (.ofByte 3)
    | _ => none
  identity _ := none

/-- An atom on the variable `x`. -/
def onX (name : String) (negated : Bool) : HirRelationAtom :=
  ⟨0, name, [⟨0, none, false, .externalRef 0 "x"⟩], negated⟩

/-- `A(x) :- B(x), not C(x)`. -/
def firstRule : HirItem := .relationRule 1 (onX "A" false)
    [.atom (onX "B" false), .atom (onX "C" true)]

/-- `C(x) :- A(x)`. -/
def secondRule : HirItem := .relationRule 2 (onX "C" false) [.atom (onX "A" false)]

/-- The installation of some rules where nobody else refuses. -/
def installOn (items : List HirItem) :
    Option (RelationKernel Entries × Except CompileError (Option (List RuleDefinition))) :=
  threeRelations.installRules (fun _ => ⟨4⟩) (fun id _ => .error (.invalidLiteral id ""))
    ⟨[], [], items⟩
    threeNames "" fun _ => ⟨.ok (), .ok ()⟩

/-- The rules that they compile to. -/
def compiledOn (items : List HirItem) : Except CompileError (Option (List Rule)) :=
  threeNames.compileRules (fun _ => ⟨4⟩) (fun id _ => .error (.invalidLiteral id "")) ⟨[], [], items⟩

/-- `A(x) :- C(x)`. -/
def otherRule : HirItem := .relationRule 3 (onX "A" false) [.atom (onX "C" false)]

/-- Two rules that are both accepted are both installed. -/
theorem installRules_allOrNothing_iff_otherRule :
    AllOrNothing threeRelations "" (compiledOn [firstRule, otherRule])
        (installOn [firstRule, otherRule]) ∧
      (installOn [firstRule, otherRule]).map (fun r =>
        (r.1.root.facts.rules.length, r.2.toOption.isSome)) =
        some (2, true) := by
  let granted : ℕ → InstallAnswer := fun _ => ⟨.ok (), .ok ()⟩
  have haccepted : ∀ rules, compiledOn [firstRule, otherRule] = .ok (some rules) →
      rules.length = 2 ∧
        (∀ rule ∈ rules, validateRuleAgainstRelations threeRelations.root.facts.relations
          rule = .ok ()) ∧
        RuleSet.validateStratified ⟨activeRules threeRelations.root.facts.rules ++ rules⟩ =
          .ok () := by
    intro rules h
    have hall : (compiledOn [firstRule, otherRule]).toOption.map (Option.map fun rules =>
        decide (rules.length = 2 ∧
          (∀ rule ∈ rules,
            validateRuleAgainstRelations threeRelations.root.facts.relations rule = .ok ()) ∧
          RuleSet.validateStratified ⟨activeRules threeRelations.root.facts.rules ++ rules⟩ =
            .ok ())) =
            some (some true) := by decide +kernel
    rw [h] at hall
    exact of_decide_eq_true (some.inj (some.inj hall))
  refine ⟨(installRules_allOrNothing_iff ⟨[], [], [firstRule, otherRule]⟩ threeNames granted
    threeRelations fun rules h => ?_).mpr fun rules h => .inr ?_, by decide +kernel⟩
  · rw [(haccepted rules h).1]
    decide +kernel
  obtain ⟨-, hvalid, hstratified⟩ := haccepted rules h
  have hmem : ∀ e ∈ answered rules granted, e.1 ∈ rules := fun e he => by
    have hmem := mem_map_of_mem (f := Prod.fst) he
    rwa [map_fst_answered] at hmem
  have hfull : (answered rules granted).take rules.length = answered rules granted :=
    take_of_length_le (by rw [answered, length_mapIdx])
  refine ⟨fun e he => hvalid e.1 (hmem e (hfull ▸ he)), ?_, fun e he => ?_⟩
  · rw [hfull, map_fst_answered]
    exact RuleSet.validateStratified_iff.mp hstratified
  · rw [hfull, answered, mem_mapIdx] at he
    obtain ⟨_, _, rfl⟩ := he
    exact ⟨rfl, rfl⟩

/-- **A second rule that closes a negative cycle is refused after the first is active.** -/
theorem firstRule_stays :
    ¬ AllOrNothing threeRelations "" (compiledOn [firstRule, secondRule])
      (installOn [firstRule, secondRule]) := by
  have hresult : (installOn [firstRule, secondRule]).map (fun r =>
      (r.1.root.facts.version, r.2.toOption.isSome)) = some (4, false) := by decide +kernel
  have hversion : threeRelations.root.facts.version = 3 := by decide +kernel
  rintro (⟨kernel', e, hsome, -, hsame, -⟩ | ⟨-, hsome⟩ | ⟨_, _, _, _, hsome, -⟩)
  · rw [hsome] at hresult
    have hfour : kernel'.root.facts.version = 4 := (Prod.mk.inj (some.inj hresult)).1
    rw [hsame, hversion] at hfour
    exact absurd hfour (by decide)
  · rw [hsome] at hresult
    cases hresult
  · rw [hsome] at hresult
    obtain ⟨-, hok⟩ := Prod.mk.inj (some.inj hresult)
    cases hok

end RelationKernel

end Mica
