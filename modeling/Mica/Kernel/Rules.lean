import Mica.Kernel.Metadata

/-!
# Kernel/Rules — the syntax of rules

A rule derives tuples of its head relation from the atoms and guards of its body.  The catalog keeps
every rule that was ever installed and marks the disabled ones inactive; only the active ones count.
-/

namespace Mica

inductive Term where
  | var (name : Symbol)
  | value (value : Value)
  deriving DecidableEq

structure Atom where
  relation : RelationId
  terms : List Term
  negated : Bool
  deriving DecidableEq

inductive RuleComparisonOp where
  | eq | ne | lt | le | gt | ge
  deriving DecidableEq

structure RuleGuard where
  op : RuleComparisonOp
  left : Term
  right : Term
  deriving DecidableEq

inductive RuleBodyItem where
  | atom (atom : Atom)
  | guard (guard : RuleGuard)
  deriving DecidableEq

structure Rule where
  headRelation : RelationId
  headTerms : List Term
  body : List RuleBodyItem
  deriving DecidableEq

/-- `Rule::body_atoms`. -/
def Rule.bodyAtoms (rule : Rule) : List Atom :=
  rule.body.filterMap fun
    | .atom atom => some atom
    | .guard _ => none

structure RuleDefinition where
  id : Identity
  rule : Rule
  source : String
  active : Bool
  deriving DecidableEq

/-- `active_rules`. -/
def activeRules (rules : List RuleDefinition) : List Rule :=
  (rules.filter fun rule => rule.active).map RuleDefinition.rule

/-- `relation_has_active_rule_head`. -/
def relationHasActiveRuleHead (rules : List RuleDefinition) (relation : RelationId) : Bool :=
  rules.any fun rule => rule.active && rule.rule.headRelation == relation

end Mica
