import EntityMachines.Catalogue.Async
import EntityMachines.Catalogue.Data
import EntityMachines.Catalogue.Feedback
import EntityMachines.Catalogue.Game
import EntityMachines.Catalogue.Interaction
import EntityMachines.Registry

/-!
The catalogue of behaviors that come with the language, in the order in which it is listed.
-/
namespace EntityMachines
namespace Catalogue

def definitions : List Definition :=
  [pagination, selection, sort, filter, search, loading, fetch, submit, retry, poll, notification,
    confirmation, undo, modal, tabs, wizard, health, score, gameLoop]

def registry : Registry := .ofList definitions

end Catalogue
end EntityMachines
