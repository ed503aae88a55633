import EntityMachines.Expr
import EntityMachines.Machine.Definition

/-!
Behaviors of what the user moves through: modal dialogs, tabs and wizards.
-/
namespace EntityMachines
namespace Catalogue

open EntityMachines.Expr

/-- A dialog over everything else. -/
def modal : Definition where
  name := "std/Modal"
  category := "ui-interaction"
  description := "Modal dialog with open/close state management"
  suggestedFor := ["Confirmation dialogs", "Create forms", "Detail views", "Any overlay content"]
  dataEntities := [
    { name := "ModalState", runtime := true,
      fields := [{ name := "content", type := "object", default := .null }] }]
  initial := "Closed"
  states := [{ name := "Closed", isInitial := true }, { name := "Open" }]
  events := [{ key := "OPEN" }, { key := "CLOSE" }, { key := "CONFIRM" }]
  transitions := [
    { sources := .listed ["Closed"], target := some "Open", event := "OPEN",
      effects := [
        call "set" ["@entity.content", "@payload.content"],
        call "render-ui" ["modal",
          call "object/set" [
            call "object/set" [.map [("onClose", "CLOSE")], "type", "@payload.type"],
            "size",
            "@config.size"],
          "@payload.content"]] },
    { sources := .listed ["Open"], target := some "Closed", event := "CLOSE",
      effects := [call "set" ["@entity.content", .null], call "render-ui" ["modal", .null]] },
    { sources := .listed ["Open"], target := some "Closed", event := "CONFIRM",
      effects := [call "set" ["@entity.content", .null], call "render-ui" ["modal", .null]] }]
  optionalConfig := [
    { name := "size", type := "string", description := "Modal size", default := "md",
      allowed := ["sm", "md", "lg", "xl", "full"] },
    { name := "closeOnOverlay", type := "boolean", description := "Close on overlay click",
      default := true },
    { name := "closeOnEscape", type := "boolean", description := "Close on escape key",
      default := true }]

/-- Views of which one is shown at a time. -/
def tabs : Definition where
  name := "std/Tabs"
  category := "ui-interaction"
  description := "Tabbed navigation within a page"
  suggestedFor := ["Multi-view pages", "Settings with sections", "Dashboard tabs",
    "Profile sections"]
  dataEntities := [
    { name := "TabsState", runtime := true, singleton := true,
      fields := [{ name := "activeTab", type := "string", default := .null }] }]
  initial := "Active"
  states := [{ name := "Active", isInitial := true }]
  events := [{ key := "INIT" }, { key := "SELECT_TAB" }]
  transitions := [
    { sources := .listed ["Active"], target := some "Active", event := "INIT",
      effects := [
        call "set" ["@entity.activeTab",
          call "math/default" ["@config.defaultTab",
            call "object/get" [call "array/first" ["@config.tabs"], "id"]]],
        call "render-ui" ["main",
          .map [("filterType", "tabs"), ("onSelect", "SELECT_TAB"), ("type", "filter-group")],
          call "object/set" [
            call "object/set" [.map [], "tabs", "@config.tabs"],
            "active",
            "@entity.activeTab"]]] },
    { sources := .listed ["Active"], target := some "Active", event := "SELECT_TAB",
      guard := some (call "array/some" ["@config.tabs",
        call "fn" ["tab", call "=" ["@tab.id", "@payload.tabId"]]]),
      effects := [call "set" ["@entity.activeTab", "@payload.tabId"]] }]
  requiredConfig := [
    { name := "tabs", type := "array", description := "Tab definitions with id, label, content" }]
  optionalConfig := [
    { name := "defaultTab", type := "string", description := "Default active tab ID" }]
  initialEffects := [call "emit" ["INIT"]]

/-- A form in steps; each step is a state. -/
def wizard : Definition where
  name := "std/Wizard"
  category := "ui-interaction"
  description := "Multi-step wizard flow - each step is a state"
  suggestedFor := ["Onboarding flows", "Multi-step forms", "Setup wizards", "Checkout flows"]
  dataEntities := [
    { name := "WizardState", runtime := true, singleton := true,
      fields := [{ name := "stepData", type := "object", default := .map [] }] }]
  initial := "Step1"
  states := [
    { name := "Step1", isInitial := true },
    { name := "Step2" },
    { name := "Step3" },
    { name := "Complete", isFinal := true }]
  events := [{ key := "INIT" }, { key := "NEXT" }, { key := "PREV" }, { key := "COMPLETE" }]
  transitions := [
    { sources := .listed ["Step1"], target := some "Step1", event := "INIT",
      effects := [
        call "render-ui" ["main",
          .map [
            ("current", 0),
            ("steps", .array ["Step 1", "Step 2", "Step 3"]),
            ("type", "wizard-progress")]],
        call "render-ui" ["main",
          .map [("submitEvent", "NEXT"), ("type", "form-section")],
          call "object/set" [.map [], "fields", "@config.step1Fields"]]] },
    { sources := .listed ["Step1"], target := some "Step2", event := "NEXT",
      effects := [
        call "set" ["@entity.stepData.step1", "@payload"],
        call "render-ui" ["main",
          .map [
            ("current", 1),
            ("steps", .array ["Step 1", "Step 2", "Step 3"]),
            ("type", "wizard-progress")]],
        call "render-ui" ["main",
          .map [("cancelEvent", "PREV"), ("submitEvent", "NEXT"), ("type", "form-section")],
          call "object/set" [.map [], "fields", "@config.step2Fields"]]] },
    { sources := .listed ["Step2"], target := some "Step1", event := "PREV",
      effects := [call "emit" ["INIT"]] },
    { sources := .listed ["Step2"], target := some "Step3", event := "NEXT",
      effects := [
        call "set" ["@entity.stepData.step2", "@payload"],
        call "render-ui" ["main",
          .map [
            ("current", 2),
            ("steps", .array ["Step 1", "Step 2", "Step 3"]),
            ("type", "wizard-progress")]],
        call "render-ui" ["main",
          .map [
            ("cancelEvent", "PREV"),
            ("cancelLabel", "Back"),
            ("submitEvent", "COMPLETE"),
            ("submitLabel", "Complete"),
            ("type", "form-section")]]] },
    { sources := .listed ["Step3"], target := some "Step2", event := "PREV",
      effects := [
        call "render-ui" ["main",
          .map [
            ("current", 1),
            ("steps", .array ["Step 1", "Step 2", "Step 3"]),
            ("type", "wizard-progress")]],
        call "render-ui" ["main",
          .map [("cancelEvent", "PREV"), ("submitEvent", "NEXT"), ("type", "form-section")],
          call "object/set" [.map [], "fields", "@config.step2Fields"]]] },
    { sources := .listed ["Step3"], target := some "Complete", event := "COMPLETE",
      effects := [
        call "persist" ["create", "@entity.stepData"],
        call "notify" ["Wizard completed!", "success"],
        call "navigate" ["@config.completionUrl"]] }]
  requiredConfig := [
    { name := "entity", type := "entity", description := "Entity to create" },
    { name := "step1Fields", type := "array", description := "Fields for step 1" },
    { name := "step2Fields", type := "array", description := "Fields for step 2" }]
  optionalConfig := [
    { name := "completionUrl", type := "string", description := "URL to navigate on completion",
      default := "/" }]

end Catalogue
end EntityMachines
