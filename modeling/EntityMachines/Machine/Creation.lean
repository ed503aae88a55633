import EntityMachines.Error
import EntityMachines.Machine.Definition
import EntityMachines.Value.Conversion
import EntityMachines.Value.Equality
import EntityMachines.World

/-!
Creation of machines. The configuration of an instance has the declared defaults under the entries
that are given. It has all that the definition requires, and optional entries with listed values
have one of them.
-/
namespace EntityMachines
namespace Definition

/-- The defaults of the optional fields; of two fields with one name the later counts. -/
def configDefaults (d : Definition) : Table Value :=
  Table.ofEntries <| d.optionalConfig.filterMap fun f =>
    match f.default with
    | .undefined => none
    | v => some (f.name, v)

/-- The value of an entry unless it is nullish. -/
def configured? (config : Table Value) (name : Text) : Option Value :=
  match config.find? name with
  | some v => if v.isNullish then none else some v
  | none => none

def checkRequired (d : Definition) (config : Table Value) (f : ConfigField) :
    Except BehaviorFault Unit :=
  if (configured? config f.name).isSome then return () else throw (.missingConfig d.name f.name)

def checkAllowed (d : Definition) (config : Table Value) (f : ConfigField) :
    Except BehaviorFault Unit :=
  if f.allowed.isEmpty then return ()
  else
    match configured? config f.name with
    | none => return ()
    | some v =>
      if f.allowed.any fun option => option.equal v then return ()
      else throw (.disallowedConfig d.name f.name v)

/-- The configuration that follows from given entries; anything but a map gives none. -/
def configure (d : Definition) (given : Value) : Except BehaviorFault (Table Value) := do
  let config := d.configDefaults.overlay given.entries
  d.requiredConfig.forM (d.checkRequired config)
  d.optionalConfig.forM (d.checkAllowed config)
  return config

end Definition

/-!
A new machine is in the initial state of its definition; its data are the declared defaults under
the entries of a seed, and its ticks count from its creation.
-/

namespace Machine

/-- The data of a new machine; a seed that is no map adds nothing. -/
def initialData (d : Definition) (seed : Value) : Table Value := d.defaultData.overlay seed.entries

def configSingletons (config : Value) : Table Value := [("config", config)]

/-- A machine as it is before anything has happened to it. -/
def fresh (handle : Nat) (d : Definition) (config : Value) (store : StoreRef) (created : Int) :
    Instance where
  definition := d
  handle
  store
  state := d.initial
  config
  singletons := configSingletons config
  lastRun := d.ticks.map fun _ => created

/-- Brings a new machine into the world, unless its configuration is refused. -/
def create (handle : Nat) (d : Definition) (given seed : Value) (created : Int) :
    Eval Instance := do
  let config ← Eval.ofExcept ((d.configure given).mapError .behavior)
  let store ← Eval.newStore (.map (initialData d seed))
  let m := fresh handle d (.map config) store created
  modify fun w => { w with machines := m :: w.machines }
  return m

end Machine
end EntityMachines
