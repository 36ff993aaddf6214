/-
**The log of an audit.**

* `Event` — what an audit notes while it runs;
* `Event.level`, `Event.message`, `Event.fields` — an event in the words of the log;
* `Document.log` — the events of an audit, in order.
-/

import SchemaAudit.Audit.Check

set_option relaxedAutoImplicit false
set_option autoImplicit false

namespace SchemaAudit

/-- Something that an audit notes. -/
inductive Event where
  /-- The walk starts at the root of the document. -/
  | root (profile : Profile)
  /-- The walk starts at a definition. -/
  | definition (group : DefinitionGroup) (name : String)
  | nullable (place : Place)
  | referencesOnly (place : Place)
  | tagged (place : Place) (field : String)
  | referencePair (place : Place)
  /-- The branches are checked against the tag that was meant. -/
  | attempt (place : Place) (field : String)
  /-- The audit is complete. -/
  | complete (errors warnings : Nat)
deriving DecidableEq, Inhabited

/-- How detailed a log must be to hold an event. -/
inductive LogLevel where
  | debug
  | trace
deriving DecidableEq, Inhabited

/-- The name of a level. -/
def LogLevel.name : LogLevel → String
  | .debug => "debug"
  | .trace => "trace"

namespace Event

/-- The level of an event. -/
def level : Event → LogLevel
  | .root _ | .definition _ _ | .complete _ _ => .debug
  | _ => .trace

/-- The wording of an event. -/
def message : Event → String
  | .root _ => "linting document root"
  | .definition _ _ => "linting definition"
  | .nullable _ => "nullable union, skipping"
  | .referencesOnly _ => "all variants are references, skipping"
  | .tagged _ _ => "discriminator found"
  | .referencePair _ => "reference pattern, discriminator not required"
  | .attempt _ _ => "verifying partial discriminator"
  | .complete _ _ => "lint complete"

/-- The details of an event. -/
def fields : Event → List (String × Json.Value)
  | .root profile => [("profile", .string profile.name)]
  | .definition group name => [("definition", .string name), ("keyword", .string group.keyword)]
  | .nullable place | .referencesOnly place | .referencePair place =>
    [("path", .string place.path)]
  | .tagged place field | .attempt place field =>
    [("path", .string place.path), ("field", .string field)]
  | .complete errors warnings =>
    [("errors", .number (.int errors)), ("warnings", .number (.int warnings))]

end Event

/-- The check of the branches against the tag that was meant, if one was. -/
def Union.attemptEvents (u : Union) (attempt : Option String) : List Event :=
  match attempt with
  | some field => [.attempt u.place field]
  | none => []

/-- What is noted about a union. -/
def Union.events (u : Union) : Verdict → List Event
  | .nullable => [.nullable u.place]
  | .referencesOnly => [.referencesOnly u.place]
  | .tagged field => [.tagged u.place field]
  | .referencePair attempt => .referencePair u.place :: u.attemptEvents attempt
  | .untagged attempt => u.attemptEvents attempt
  | .lone => []

/-- What is noted at a stop of the walk. -/
def Visit.events (config : Config) : Visit → List Event
  | .union u => u.events (u.verdict config.tagFields)
  | .schema _ _ | .names _ _ => []

/-- What is noted where the walk starts. -/
def Origin.event (config : Config) : Origin → Event
  | .document => .root config.profile
  | .definition group name => .definition group name

/-- The events of an audit, in order. -/
def Document.log (config : Config) (d : Document) : List Event :=
  let report := d.audit config
  (d.roots.flatMap fun root =>
      root.1.event config ::
        (root.2.visits (.origin root.1) 0).flatMap (Visit.events config)) ++
    [.complete (report.count .error) (report.count .warning)]

end SchemaAudit
