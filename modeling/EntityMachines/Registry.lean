import EntityMachines.Machine.Definition
import EntityMachines.Text.Search

/-!
A registry holds definitions by name, listed in the order in which their names first came in.
It finds definitions by what they are for, and names close to one that it does not have.
-/
namespace EntityMachines

structure Registry where
  definitions : List Definition := []

namespace Registry

/-- Puts a definition in the place of one with the same name, or else behind all others. -/
def place (d : Definition) : List Definition → List Definition
  | [] => [d]
  | other :: rest => if other.name = d.name then d :: rest else other :: place d rest

def register (r : Registry) (d : Definition) : Registry := ⟨place d r.definitions⟩

def ofList (ds : List Definition) : Registry := ds.foldl register {}

/-- Forgets all definitions. -/
def clear (_ : Registry) : Registry := {}

/-- A change of what a registry holds. -/
inductive Change where
  | register (d : Definition)
  | clear

def change (r : Registry) : Change → Registry
  | .register d => r.register d
  | .clear => r.clear

/-- A registry that was empty at first, after changes in order. -/
def ofChanges (changes : List Change) : Registry := changes.foldl change {}

def find? (r : Registry) (name : Text) : Option Definition :=
  r.definitions.find? fun d => d.name = name

def contains (r : Registry) (name : Text) : Bool := (r.find? name).isSome

def names (r : Registry) : List Text := r.definitions.map (·.name)

def size (r : Registry) : Nat := r.definitions.length

def byCategory (r : Registry) (category : Text) : List Definition :=
  r.definitions.filter fun d => d.category = category

/-- A use and a suggestion match if one holds the other, in any letter case. -/
def suits (use suggestion : Text) : Bool :=
  suggestion.toLower.contains use.toLower || use.toLower.contains suggestion.toLower

def forUse (r : Registry) (use : Text) : List Definition :=
  r.definitions.filter fun d => d.suggestedFor.any (suits use)

def forEvent (r : Registry) (event : Text) : List Definition :=
  r.definitions.filter (·.hasEvent event)

def withState (r : Registry) (state : Text) : List Definition :=
  r.definitions.filter (·.hasState state)

/-- A name in lower case and without the mark of catalogued behaviors. -/
def plainName (name : Text) : Text :=
  let name := name.toLower
  let mark := Definition.catalogueMark
  if name.startsWith mark then name.drop mark.length else name

/-- Two names are similar if one holds the other or if few edits lead from one to the other. -/
def similar (a b : Text) : Bool :=
  let a := plainName a
  let b := plainName b
  a.contains b || b.contains a || a.distance b ≤ 3

def similarNames (r : Registry) (name : Text) : List Text := r.names.filter (similar name)

/-- What is wrong with a name that should refer to a behavior. -/
inductive ReferenceFault where
  | outsideCatalogue (name : Text)
  | unknown (name : Text)
  | mistaken (name : Text) (similar : List Text)
deriving DecidableEq, Repr

def ReferenceFault.message : ReferenceFault → Text
  | outsideCatalogue name => "Behavior name must start with 'std/': " ++ name
  | unknown name => "Unknown behavior: " ++ name
  | mistaken name similar =>
    "Unknown behavior '" ++ name ++ "'. Did you mean: " ++ Text.join ", " similar ++ "?"

def referenceFault? (r : Registry) (name : Text) : Option ReferenceFault :=
  if !name.startsWith Definition.catalogueMark then some (.outsideCatalogue name)
  else if r.contains name then none
  else
    match r.similarNames name with
    | [] => some (.unknown name)
    | names => some (.mistaken name names)

structure Stats where
  behaviors : Nat
  states : Nat
  events : Nat
  transitions : Nat
  ticks : Nat
  byCategory : Table Nat
deriving DecidableEq, Repr

def countCategory (counts : Table Nat) (d : Definition) : Table Nat :=
  counts.insert d.category ((counts.find? d.category).getD 0 + 1)

def total (r : Registry) (f : Definition → Nat) : Nat := r.definitions.foldl (fun n d => n + f d) 0

def stats (r : Registry) : Stats where
  behaviors := r.size
  states := r.total (·.states.length)
  events := r.total (·.events.length)
  transitions := r.total (·.transitions.length)
  ticks := r.total (·.ticks.length)
  byCategory := r.definitions.foldl countCategory []

end Registry
end EntityMachines
