import Mathlib.Data.Finmap
import ProgrammableCaching.Library.UnorderedMap
import ProgrammableCaching.Handler
import ProgrammableCaching.Proto

/-! `storage_client/rule_db.cc`: the rules a storage client has installed, kept
under one string that joins the operation and the key. -/

namespace ProgrammableCaching

open UnorderedMap

structure RuleDb where
  ruleDb : UMap String Rule := ∅

namespace RuleDb

def getRuleKey (key : String) (op : OperationType) : String := op.name ++ ":" ++ key

def addRule (d : RuleDb) (r : Rule) : RuleDb :=
  ⟨d.ruleDb.insert (getRuleKey r.key r.opType) r⟩

def removeRule (d : RuleDb) (r : Rule) : RuleDb :=
  ⟨d.ruleDb.erase (getRuleKey r.key r.opType)⟩

def hasMatchingRule (d : RuleDb) (key : String) (op : OperationType) : Bool :=
  (d.ruleDb.lookup (getRuleKey key op)).isSome

def getMatchingRule (d : RuleDb) (key : String) (op : OperationType) : Except Failure Rule :=
  match d.ruleDb.lookup (getRuleKey key op) with
  | some r => .ok r
  | none => .error .outOfRange

/-- The GET and the PUT rule of a key are kept apart, whatever the key. -/
theorem getRuleKey_get_ne_put (k k' : String) : getRuleKey k .get ≠ getRuleKey k' .put := by
  intro h
  have hl := congrArg String.toList h
  simp [getRuleKey, OperationType.name] at hl

end RuleDb

end ProgrammableCaching
