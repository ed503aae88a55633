import EntityMachines.Error
import EntityMachines.World

/-!
What a machine tells about itself, in lines of a name and a value.
-/
namespace EntityMachines
namespace Report

def line (name value : Text) : Text := name ++ ([61] : Text) ++ value

/-- What has been counted, after the names of the behavior and of the state. -/
def statsLines (behavior state : Text) (s : Stats) : List Text :=
  [line "behavior" behavior, line "state" state, line "events" (Text.ofNat s.events),
    line "transitions" (Text.ofNat s.transitions),
    line "guard_rejections" (Text.ofNat s.guardRejections),
    line "guard_errors" (Text.ofNat s.guardErrors),
    line "unmatched_events" (Text.ofNat s.unmatchedEvents),
    line "ticks_run" (Text.ofNat s.ticksRun), line "ticks_skipped" (Text.ofNat s.ticksSkipped)]

/-- One line for each field of an entity. -/
def entityText (data : Value) : Text :=
  data.entries.flatMap fun (key, item) => line key item.print ++ ([10] : Text)

end Report

namespace Instance

def statsLines (m : Instance) : List Text := Report.statsLines m.definition.name m.state m.stats

end Instance

/-- An instance that nobody has brought into a world. It can be looked at, and shows an empty
state, but it does not run. -/
structure DetachedInstance where
  definition : Option Definition

namespace DetachedInstance

/-- Why it does not run. -/
def refusal (d : DetachedInstance) (activity : Text) : BehaviorFault :=
  match d.definition with
  | none => .noDefinition activity
  | some _ => .notShared activity

/-- The context of its expressions, on a store without data. -/
def context (store : StoreRef) (payload : Value) (now : Int) : Context where
  store := some store
  payload
  now

def statsLines (d : DetachedInstance) : List Text :=
  Report.statsLines ((d.definition.map (·.name)).getD []) [] {}

end DetachedInstance
end EntityMachines
