/-
# RenderPlan.Optimize.Journal -- what happened during an optimization

The journal is a list of entries in the order of events, the latest first while it grows. It holds
more than the event log shows: each call of a rule with what it reported, each visit of a place with
its result, and the course of the sweep. Statements about "every call" or "the last visit" are
statements about journals; the event log is the part of it that has a text.
-/
import RenderPlan.Rule.Registry

namespace RenderPlan

/-- Where a visited task stands. -/
inductive Place where
  /-- The entry of the list at a position. -/
  | entry (position : Nat)
  /-- A slot of a node. -/
  | slot (parent : TaskId) (index : Nat)
  deriving DecidableEq, Repr

/-- What a rule was called for. -/
inductive CallTarget where
  | list (list : List (Option TaskId))
  | task (view : TaskView)
  deriving DecidableEq, Repr

/-- One call of a rule. -/
structure CallRecord where
  rule : RuleId
  target : CallTarget
  /-- The categories that the call left unsettled: those that it answered, and those of the
  descriptor if it changed its task or the list. -/
  reported : Mask
  /-- It changed its task or the list. -/
  changed : Bool
  deriving DecidableEq, Repr

/-- Why a sweep went back to the first category. -/
inductive RestartCause where
  /-- The next rule relies on its own category, and an earlier rule unsettled it. -/
  | selfDirty (category : Category) (rule : String)
  /-- The rules of the step rely on earlier categories, and some of them are not settled. -/
  | gateDirty (category : Category) (dirty : Mask)
  deriving DecidableEq, Repr

namespace RestartCause

/-- The line in the event log. -/
def text : RestartCause → String
  | selfDirty category rule =>
    "TRACE self dependency dirty, restart category=" ++ category.name ++ " rule=" ++ rule
  | gateDirty category dirty =>
    "TRACE upstream category dirty, restart category=" ++ category.name ++ " dirty=" ++
      dirty.debugText

end RestartCause

/-- An event of an optimization. -/
inductive Entry where
  /-- The lines of a dump were logged. -/
  | dump (lines : List String)
  /-- A step began: these rules of the category, from this position on. -/
  | step (category : Category) (first : Nat) (rules : List RuleId) (gate : Mask)
  /-- A rule was called. -/
  | call (c : CallRecord)
  /-- The task at a place was visited, and this came of it. -/
  | visit (place : Place) (task : TaskId) (result : Option TaskId) (mode : RepeatMode)
  /-- All rules of the category were done without going back. -/
  | settled (category : Category)
  /-- The sweep went back to the first category. -/
  | restart (cause : RestartCause)
  /-- The steps were used up. -/
  | exhausted (maxSteps : Nat)
  deriving DecidableEq, Repr

/-- The events, the latest first. -/
abbrev Journal := List Entry

namespace Entry

/-- The lines that an event leaves in the event log. -/
def lines : Entry → List String
  | dump lines => lines
  | restart cause => [cause.text]
  | exhausted maxSteps => (Error.noFixpoint maxSteps).logLine?.toList
  | _ => []

/-- The call that an event is, if it is one. -/
def call? : Entry → Option CallRecord
  | call c => some c
  | _ => none

end Entry

namespace Journal

/-- The event log, the earliest line first. -/
def lines (j : Journal) : List String := j.reverse.flatMap Entry.lines

/-- The calls of rules, the earliest first. -/
def calls (j : Journal) : List CallRecord := j.reverse.filterMap Entry.call?

end Journal

end RenderPlan
