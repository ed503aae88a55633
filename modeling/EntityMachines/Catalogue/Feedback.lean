import EntityMachines.Expr
import EntityMachines.Machine.Definition

/-!
Behaviors that answer the user: notifications, confirmation and undoing.
-/
namespace EntityMachines
namespace Catalogue

open EntityMachines.Expr

/-- Messages that are shown for a while. -/
def notification : Definition where
  name := "std/Notification"
  category := "feedback"
  description := "Toast notification with auto-dismiss"
  suggestedFor := ["Success messages", "Error alerts", "Status updates", "User feedback"]
  dataEntities := [
    { name := "NotificationState", runtime := true, singleton := true,
      fields := [
        { name := "notifications", type := "array", default := .array [] },
        { name := "currentId", type := "number", default := 0 }] }]
  initial := "Hidden"
  states := [{ name := "Hidden", isInitial := true }, { name := "Visible" }]
  events := [{ key := "SHOW" }, { key := "HIDE" }, { key := "DISMISS" }]
  transitions := [
    { target := some "Visible", event := "SHOW",
      effects := [
        call "let" [
          .array [.array ["id", call "+" ["@entity.currentId", 1]]],
          call "do" [
            call "set" ["@entity.currentId", "@id"],
            call "set" ["@entity.notifications",
              call "array/takeLast" [
                call "array/append" ["@entity.notifications",
                  call "object/merge" [
                    call "object/pick" ["@payload",
                      call "array/append" [
                        call "array/append" [call "array/append" [.array [], "type"], "message"],
                        "title"]],
                    call "object/set" [
                      call "object/set" [.map [], "id", "@id"],
                      "expiresAt",
                      call "if" [
                        call ">" ["@config.autoDismissMs", 0],
                        call "+" ["@now", "@config.autoDismissMs"],
                        .null]]]],
                "@config.maxVisible"]]]]] },
    { sources := .listed ["Visible"], event := "DISMISS",
      effects := [
        call "set" ["@entity.notifications",
          call "array/reject" ["@entity.notifications",
            call "fn" ["n", call "=" ["@n.id", "@payload.id"]]]],
        call "when" [call "array/empty?" ["@entity.notifications"], call "emit" ["HIDE"]]] },
    { target := some "Hidden", event := "HIDE",
      effects := [call "set" ["@entity.notifications", .array []]] }]
  ticks := [
    { name := "AutoDismiss", interval := .fixed 100, appliesTo := ["Visible"],
      guard := some (call "array/some" ["@entity.notifications",
        call "fn" ["n", call "and" ["@n.expiresAt", call "<=" ["@n.expiresAt", "@now"]]]]),
      effects := [
        call "set" ["@entity.notifications",
          call "array/reject" ["@entity.notifications",
            call "fn" ["n", call "and" ["@n.expiresAt", call "<=" ["@n.expiresAt", "@now"]]]]],
        call "when" [call "array/empty?" ["@entity.notifications"], call "emit" ["HIDE"]]] }]
  optionalConfig := [
    { name := "autoDismissMs", type := "number", description := "Auto dismiss delay (0 = no auto)",
      default := 5000 },
    { name := "position", type := "string", description := "Toast position", default := "top-right",
      allowed := ["top-left", "top-center", "top-right", "bottom-left", "bottom-center",
        "bottom-right"] },
    { name := "maxVisible", type := "number", description := "Maximum visible notifications",
      default := 5 }]

/-- A question before an action. -/
def confirmation : Definition where
  name := "std/Confirmation"
  category := "feedback"
  description := "Confirmation dialog with confirm/cancel actions"
  suggestedFor := ["Delete confirmation", "Destructive actions", "Important decisions",
    "Exit warnings"]
  dataEntities := [
    { name := "ConfirmationState", runtime := true, singleton := true,
      fields := [
        { name := "title", type := "string", default := "" },
        { name := "message", type := "string", default := "" },
        { name := "pendingAction", type := "object", default := .null }] }]
  initial := "Closed"
  states := [{ name := "Closed", isInitial := true }, { name := "Open" }]
  events := [{ key := "REQUEST" }, { key := "CONFIRM" }, { key := "CANCEL" }]
  transitions := [
    { sources := .listed ["Closed"], target := some "Open", event := "REQUEST",
      effects := [
        call "set" ["@entity.title", "@payload.title"],
        call "set" ["@entity.message", "@payload.message"],
        call "set" ["@entity.pendingAction", "@payload.onConfirm"],
        call "render-ui" ["modal",
          .map [("type", "confirmation")],
          call "object/merge" ["@payload",
            call "object/pick" ["@config",
              call "array/append" [
                call "array/append" [
                  call "array/append" [.array [], "confirmLabel"],
                  "cancelLabel"],
                "confirmVariant"]]]]] },
    { sources := .listed ["Open"], target := some "Closed", event := "CONFIRM",
      effects := [
        call "render-ui" ["modal", .null],
        call "when" ["@entity.pendingAction",
          call "emit" ["@entity.pendingAction.event", "@entity.pendingAction.payload"]],
        call "set" ["@entity.pendingAction", .null]] },
    { sources := .listed ["Open"], target := some "Closed", event := "CANCEL",
      effects := [call "render-ui" ["modal", .null], call "set" ["@entity.pendingAction", .null]] }]
  optionalConfig := [
    { name := "confirmLabel", type := "string", description := "Confirm button label",
      default := "Confirm" },
    { name := "cancelLabel", type := "string", description := "Cancel button label",
      default := "Cancel" },
    { name := "confirmVariant", type := "string", description := "Confirm button variant",
      default := "primary",
      allowed := ["primary", "danger", "warning"] }]

/-- A history of actions that can be taken back and done again. -/
def undo : Definition where
  name := "std/Undo"
  category := "feedback"
  description := "Undo/redo stack for reversible actions"
  suggestedFor := ["Document editing", "Form changes", "Canvas operations", "Reversible actions"]
  dataEntities := [
    { name := "UndoState", runtime := true, singleton := true,
      fields := [
        { name := "undoStack", type := "array", default := .array [] },
        { name := "redoStack", type := "array", default := .array [] }] }]
  initial := "Ready"
  states := [{ name := "Ready", isInitial := true }]
  events := [{ key := "PUSH" }, { key := "UNDO" }, { key := "REDO" }, { key := "CLEAR" }]
  transitions := [
    { event := "PUSH",
      effects := [
        call "set" ["@entity.undoStack",
          call "array/slice" [
            call "array/prepend" ["@entity.undoStack", "@payload"],
            0,
            "@config.maxHistory"]],
        call "set" ["@entity.redoStack", .array []],
        call "when" ["@config.showToast",
          call "notify" [
            call "str/template" ["\x7bdescription\x7d - Click to undo", "@payload"],
            "info"]]] },
    { event := "UNDO", guard := some (call ">" [call "array/len" ["@entity.undoStack"], 0]),
      effects := [
        call "let" [
          .array [.array ["action", call "array/first" ["@entity.undoStack"]]],
          call "do" [
            call "set" ["@entity.undoStack", call "array/slice" ["@entity.undoStack", 1]],
            call "set" ["@entity.redoStack", call "array/prepend" ["@entity.redoStack", "@action"]],
            call "emit" ["@action.reverseAction", "@action.reverseData"]]]] },
    { event := "REDO", guard := some (call ">" [call "array/len" ["@entity.redoStack"], 0]),
      effects := [
        call "let" [
          .array [.array ["action", call "array/first" ["@entity.redoStack"]]],
          call "do" [
            call "set" ["@entity.redoStack", call "array/slice" ["@entity.redoStack", 1]],
            call "set" ["@entity.undoStack", call "array/prepend" ["@entity.undoStack", "@action"]],
            call "emit" ["@action.action", "@action.data"]]]] },
    { event := "CLEAR",
      effects := [
        call "set" ["@entity.undoStack", .array []],
        call "set" ["@entity.redoStack", .array []]] }]
  optionalConfig := [
    { name := "maxHistory", type := "number", description := "Maximum undo history",
      default := 50 },
    { name := "showToast", type := "boolean", description := "Show undo toast", default := true },
    { name := "toastDurationMs", type := "number", description := "Toast display duration",
      default := 5000 }]

end Catalogue
end EntityMachines
