import EntityMachines.Value

/-!
Nested maps: what lies at the end of a path in them, and how they are merged. A path is a list of
keys and is written with a dot between neighbours.
-/
namespace EntityMachines

abbrev Path := List Text

namespace Path

/-- The keys of a dotted text; a text without dots is a single key. -/
def ofText (dotted : Text) : Path := dotted.splitByte 46

def toText (path : Path) : Text := Text.join "." path

end Path

namespace Value

/-- The value at the end of a path, undefined where the path leaves the maps. -/
def getIn : Value → Path → Value
  | v, [] => v
  | map m, key :: path => getIn ((map m).get key) path
  | _, _ :: _ => undefined

/-- The value with another one at the end of a path. Maps missing on the way are made, and what
is no map gives way to one. -/
def assocIn (v : Value) (path : Path) (item : Value) : Value :=
  match path with
  | [] => item
  | key :: rest => v.put key (assocIn (v.get key) rest item)

/-- A map under several changes, each at a dotted path, in the order of the paths' texts. -/
def applyChanges (v : Value) (changes : Table Value) : Value :=
  changes.foldl (fun v change => v.assocIn (Path.ofText change.1) change.2) v

end Value

/-!
Merging maps. Where both sides hold a map the maps are merged in turn, anywhere else the second
side counts.
-/

namespace Value

mutual

/-- The value for a key that one map may and the other does have. -/
def mergeOver (existing : Option Value) : Value → Value
  | map entries =>
    match existing with
    | some (map base) => map (deepMerge base entries)
    | _ => map entries
  | incoming => incoming

def deepMerge (base : List (Text × Value)) : List (Text × Value) → List (Text × Value)
  | [] => base
  | (key, incoming) :: rest =>
    deepMerge (Table.insert base key (mergeOver (Table.find? base key) incoming)) rest

end

end Value
end EntityMachines
