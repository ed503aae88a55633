import EntityMachines.Expr
import EntityMachines.Machine.Definition

/-!
Behaviors of lists and tables: pages, selection, sorting, filtering and search.
-/
namespace EntityMachines
namespace Catalogue

open EntityMachines.Expr

/-- Pages of a long list. The page moves only to pages that exist when it moves. -/
def pagination : Definition where
  name := "std/Pagination"
  category := "data-management"
  description := "Page-based navigation for large data sets"
  suggestedFor := ["Large lists", "Table pagination", "Infinite scroll alternative",
    "Data-heavy views"]
  dataEntities := [
    { name := "PaginationState", runtime := true, singleton := true,
      fields := [
        { name := "page", type := "number", default := 1 },
        { name := "pageSize", type := "number", default := 20 },
        { name := "totalItems", type := "number", default := 0 }] }]
  initial := "Active"
  states := [{ name := "Active", isInitial := true }]
  events := [
    { key := "INIT" },
    { key := "NEXT_PAGE" },
    { key := "PREV_PAGE" },
    { key := "GO_TO_PAGE" },
    { key := "SET_PAGE_SIZE" },
    { key := "SET_TOTAL" }]
  transitions := [
    { event := "INIT",
      effects := [
        call "set" ["@entity.page", 1],
        call "set" ["@entity.pageSize", "@config.defaultPageSize"]] },
    { event := "NEXT_PAGE",
      guard := some (call "<" ["@entity.page",
        call "math/ceil" [call "/" ["@entity.totalItems", "@entity.pageSize"]]]),
      effects := [call "set" ["@entity.page", call "+" ["@entity.page", 1]]] },
    { event := "PREV_PAGE", guard := some (call ">" ["@entity.page", 1]),
      effects := [call "set" ["@entity.page", call "-" ["@entity.page", 1]]] },
    { event := "GO_TO_PAGE",
      guard := some (call "and" [
        call ">=" ["@payload.page", 1],
        call "<=" ["@payload.page",
          call "math/ceil" [call "/" ["@entity.totalItems", "@entity.pageSize"]]]]),
      effects := [call "set" ["@entity.page", "@payload.page"]] },
    { event := "SET_PAGE_SIZE",
      effects := [
        call "set" ["@entity.pageSize", "@payload.size"],
        call "set" ["@entity.page", 1]] },
    { event := "SET_TOTAL", effects := [call "set" ["@entity.totalItems", "@payload.total"]] }]
  optionalConfig := [
    { name := "defaultPageSize", type := "number", description := "Default items per page",
      default := 20 },
    { name := "pageSizeOptions", type := "array", description := "Available page sizes",
      default := .array [10, 20, 50, 100] }]

/-- Selected items, one or several. -/
def selection : Definition where
  name := "std/Selection"
  category := "data-management"
  description := "Single or multi-selection management"
  suggestedFor := ["Multi-select lists", "Bulk operations", "Item picking", "Checkboxes in tables"]
  dataEntities := [
    { name := "SelectionState", runtime := true, singleton := true,
      fields := [
        { name := "selected", type := "array", default := .array [] },
        { name := "lastSelected", type := "string", default := .null }] }]
  initial := "Active"
  states := [{ name := "Active", isInitial := true }]
  events := [
    { key := "INIT" },
    { key := "SELECT" },
    { key := "DESELECT" },
    { key := "TOGGLE" },
    { key := "SELECT_ALL" },
    { key := "CLEAR" }]
  transitions := [
    { event := "INIT",
      effects := [
        call "set" ["@entity.selected", .array []],
        call "set" ["@entity.lastSelected", .null]] },
    { event := "SELECT",
      effects := [
        call "if" [
          call "=" ["@config.mode", "single"],
          call "do" [
            call "set" ["@entity.selected", call "array/append" [.array [], "@payload.id"]],
            call "set" ["@entity.lastSelected", "@payload.id"]],
          call "if" [
            call "or" [
              call "not" ["@config.maxSelection"],
              call "<" [call "array/len" ["@entity.selected"], "@config.maxSelection"]],
            call "do" [
              call "set" ["@entity.selected",
                call "array/append" ["@entity.selected", "@payload.id"]],
              call "set" ["@entity.lastSelected", "@payload.id"]],
            call "notify" ["Maximum selection reached", "warning"]]]] },
    { event := "DESELECT",
      effects := [
        call "set" ["@entity.selected",
          call "array/filter" ["@entity.selected",
            call "fn" ["id", call "!=" ["@id", "@payload.id"]]]]] },
    { event := "TOGGLE",
      effects := [
        call "if" [
          call "array/includes" ["@entity.selected", "@payload.id"],
          call "set" ["@entity.selected",
            call "array/filter" ["@entity.selected",
              call "fn" ["id", call "!=" ["@id", "@payload.id"]]]],
          call "if" [
            call "or" [
              call "=" ["@config.mode", "single"],
              call "not" ["@config.maxSelection"],
              call "<" [call "array/len" ["@entity.selected"], "@config.maxSelection"]],
            call "set" ["@entity.selected",
              call "if" [
                call "=" ["@config.mode", "single"],
                call "array/append" [.array [], "@payload.id"],
                call "array/append" ["@entity.selected", "@payload.id"]]],
            call "notify" ["Maximum selection reached", "warning"]]]] },
    { event := "SELECT_ALL", guard := some (call "=" ["@config.mode", "multi"]),
      effects := [call "set" ["@entity.selected", "@payload.ids"]] },
    { event := "CLEAR",
      effects := [
        call "set" ["@entity.selected", .array []],
        call "set" ["@entity.lastSelected", .null]] }]
  optionalConfig := [
    { name := "mode", type := "string", description := "Selection mode", default := "single",
      allowed := ["single", "multi"] },
    { name := "maxSelection", type := "number", description := "Maximum selections (multi mode)",
      default := .null }]

/-- The field and the direction by which a table is sorted. -/
def sort : Definition where
  name := "std/Sort"
  category := "data-management"
  description := "Sorting by field with direction toggle"
  suggestedFor := ["Sortable tables", "List ordering", "Column headers"]
  dataEntities := [
    { name := "SortState", runtime := true, singleton := true,
      fields := [
        { name := "sortField", type := "string", default := .null },
        { name := "sortDirection", type := "string", default := "asc" }] }]
  initial := "Active"
  states := [{ name := "Active", isInitial := true }]
  events := [
    { key := "INIT" },
    { key := "SORT" },
    { key := "TOGGLE_DIRECTION" },
    { key := "CLEAR_SORT" }]
  transitions := [
    { event := "INIT",
      effects := [
        call "set" ["@entity.sortField", "@config.defaultField"],
        call "set" ["@entity.sortDirection", "@config.defaultDirection"]] },
    { event := "SORT",
      effects := [
        call "if" [
          call "=" ["@entity.sortField", "@payload.field"],
          call "set" ["@entity.sortDirection",
            call "if" [call "=" ["@entity.sortDirection", "asc"], "desc", "asc"]],
          call "do" [
            call "set" ["@entity.sortField", "@payload.field"],
            call "set" ["@entity.sortDirection", "asc"]]]] },
    { event := "TOGGLE_DIRECTION", guard := some (call "!=" ["@entity.sortField", .null]),
      effects := [
        call "set" ["@entity.sortDirection",
          call "if" [call "=" ["@entity.sortDirection", "asc"], "desc", "asc"]]] },
    { event := "CLEAR_SORT",
      effects := [
        call "set" ["@entity.sortField", .null],
        call "set" ["@entity.sortDirection", "asc"]] }]
  optionalConfig := [
    { name := "defaultField", type := "string", description := "Default sort field",
      default := .null },
    { name := "defaultDirection", type := "string", description := "Default direction",
      default := "asc",
      allowed := ["asc", "desc"] }]

/-- The query that a table is filtered by. -/
def filter : Definition where
  name := "std/Filter"
  category := "data-management"
  description := "Query state for explicit filtering of an entity table"
  suggestedFor := ["Filterable lists", "Advanced search", "Filter panels", "Faceted search",
    "Entity tables with filters"]
  dataEntities := [
    { name := "QueryState", runtime := true, singleton := true,
      fields := [
        { name := "status", type := "string", default := .null,
          description := "Filter by status field" },
        { name := "priority", type := "string", default := .null,
          description := "Filter by priority field" },
        { name := "search", type := "string", default := "", description := "Search term" },
        { name := "sortBy", type := "string", default := "createdAt", description := "Sort field" },
        { name := "sortOrder", type := "string", default := "desc",
          description := "Sort direction: asc or desc" }] }]
  initial := "Active"
  states := [{ name := "Active", isInitial := true }]
  events := [
    { key := "INIT" },
    { key := "FILTER" },
    { key := "SEARCH" },
    { key := "SORT" },
    { key := "CLEAR_FILTERS" }]
  transitions := [
    { event := "INIT",
      effects := [
        call "render-ui" ["sidebar",
          .map [("type", "filter-group")],
          call "object/set" [
            call "object/set" [.map [], "query", "@entity"],
            "filters",
            "@config.filters"]],
        call "render-ui" ["main",
          .map [("type", "entity-table")],
          call "object/set" [
            call "object/set" [
              call "object/set" [.map [], "entity", "@config.entity"],
              "query",
              "@entity"],
            "columns",
            "@config.columns"]]] },
    { event := "FILTER",
      effects := [
        call "set" ["@entity.status", "@payload.status"],
        call "set" ["@entity.priority", "@payload.priority"]] },
    { event := "SEARCH", effects := [call "set" ["@entity.search", "@payload.searchTerm"]] },
    { event := "SORT",
      effects := [
        call "set" ["@entity.sortBy", "@payload.field"],
        call "set" ["@entity.sortOrder", "@payload.order"]] },
    { event := "CLEAR_FILTERS",
      effects := [
        call "set" ["@entity.status", .null],
        call "set" ["@entity.priority", .null],
        call "set" ["@entity.search", ""]] }]
  requiredConfig := [{ name := "entity", type := "string", description := "Entity to filter" }]
  optionalConfig := [
    { name := "filters", type := "array", description := "Filter field definitions",
      default := .array [] },
    { name := "columns", type := "array", description := "Table columns to display",
      default := .array [] }]

/-- A search term, acted on after typing has paused. -/
def search : Definition where
  name := "std/Search"
  category := "data-management"
  description := "Search with debounce"
  suggestedFor := ["Search inputs", "Quick filters", "Global search", "Type-ahead"]
  dataEntities := [
    { name := "SearchState", runtime := true, singleton := true,
      fields := [
        { name := "search", type := "string", default := "" },
        { name := "isSearching", type := "boolean", default := false }] }]
  initial := "Idle"
  states := [{ name := "Idle", isInitial := true }, { name := "Searching" }]
  events := [
    { key := "INIT" },
    { key := "SEARCH" },
    { key := "CLEAR_SEARCH" },
    { key := "SEARCH_COMPLETE" }]
  transitions := [
    { event := "INIT",
      effects := [
        call "set" ["@entity.search", ""],
        call "set" ["@entity.isSearching", false],
        call "render-ui" ["main",
          .map [("type", "search-bar")],
          call "object/set" [
            call "object/set" [.map [], "query", "@entity"],
            "placeholder",
            "@config.placeholder"]]] },
    { sources := .listed ["Idle"], target := some "Searching", event := "SEARCH",
      guard := some (call ">=" [call "str/len" ["@payload.term"], "@config.minLength"]),
      effects := [
        call "set" ["@entity.search", "@payload.term"],
        call "set" ["@entity.isSearching", true],
        call "async/debounce" ["SEARCH_COMPLETE", "@config.debounceMs"]] },
    { sources := .listed ["Idle"], event := "SEARCH",
      guard := some (call "<" [call "str/len" ["@payload.term"], "@config.minLength"]),
      effects := [call "set" ["@entity.search", "@payload.term"]] },
    { sources := .listed ["Searching"], event := "SEARCH",
      effects := [
        call "set" ["@entity.search", "@payload.term"],
        call "async/debounce" ["SEARCH_COMPLETE", "@config.debounceMs"]] },
    { sources := .listed ["Searching"], target := some "Idle", event := "SEARCH_COMPLETE",
      effects := [call "set" ["@entity.isSearching", false]] },
    { target := some "Idle", event := "CLEAR_SEARCH",
      effects := [call "set" ["@entity.search", ""], call "set" ["@entity.isSearching", false]] }]
  optionalConfig := [
    { name := "debounceMs", type := "number", description := "Debounce delay in ms",
      default := 300 },
    { name := "minLength", type := "number", description := "Minimum search length", default := 1 },
    { name := "placeholder", type := "string", description := "Input placeholder",
      default := "Search..." }]

end Catalogue
end EntityMachines
