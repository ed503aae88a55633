import EntityMachines.Expr
import EntityMachines.Machine.Definition

/-!
Behaviors of work that takes time: loading, fetching, submitting, retrying and polling.
-/
namespace EntityMachines
namespace Catalogue

open EntityMachines.Expr

/-- Data that is loaded once. -/
def loading : Definition where
  name := "std/Loading"
  category := "async"
  description := "Loading state management with success/error handling"
  suggestedFor := ["Async data loading", "API calls", "Resource fetching", "Initial page load"]
  dataEntities := [
    { name := "LoadingState", runtime := true, singleton := true,
      fields := [
        { name := "isLoading", type := "boolean", default := false },
        { name := "error", type := "object", default := .null },
        { name := "data", type := "object", default := .null },
        { name := "startTime", type := "number", default := .null }] }]
  initial := "Idle"
  states := [
    { name := "Idle", isInitial := true },
    { name := "Loading" },
    { name := "Success" },
    { name := "Error" }]
  events := [
    { key := "START" },
    { key := "SUCCESS" },
    { key := "ERROR" },
    { key := "RETRY" },
    { key := "RESET" }]
  transitions := [
    { sources := .listed ["Idle"], target := some "Loading", event := "START",
      effects := [
        call "set" ["@entity.isLoading", true],
        call "set" ["@entity.error", .null],
        call "set" ["@entity.startTime", call "time/now" []],
        call "render-ui" ["content", .map [("type", "loading-state")]]] },
    { sources := .listed ["Loading"], target := some "Success", event := "SUCCESS",
      effects := [
        call "set" ["@entity.isLoading", false],
        call "set" ["@entity.data", "@payload.data"],
        call "render-ui" ["content", .null]] },
    { sources := .listed ["Loading"], target := some "Error", event := "ERROR",
      effects := [
        call "set" ["@entity.isLoading", false],
        call "set" ["@entity.error", "@payload.error"],
        call "render-ui" ["content",
          .map [("onRetry", "RETRY"), ("type", "error-state")],
          call "object/set" [.map [], "error", "@payload.error"]]] },
    { sources := .listed ["Error"], target := some "Loading", event := "RETRY",
      effects := [
        call "set" ["@entity.isLoading", true],
        call "set" ["@entity.error", .null],
        call "set" ["@entity.startTime", call "time/now" []],
        call "render-ui" ["content", .map [("type", "loading-state")]]] },
    { sources := .listed ["Success", "Error"], target := some "Idle", event := "RESET",
      effects := [
        call "set" ["@entity.isLoading", false],
        call "set" ["@entity.error", .null],
        call "set" ["@entity.data", .null]] }]
  optionalConfig := [
    { name := "showLoadingAfterMs", type := "number", description := "Delay before showing loading",
      default := 200 },
    { name := "minLoadingMs", type := "number", description := "Minimum loading display time",
      default := 500 }]

/-- Data that is fetched, grows stale and is fetched again. -/
def fetch : Definition where
  name := "std/Fetch"
  category := "async"
  description := "Data fetching with caching and refresh capabilities"
  suggestedFor := ["API data fetching", "Entity loading", "Remote data", "Cached queries"]
  dataEntities := [
    { name := "FetchState", runtime := true, singleton := true,
      fields := [
        { name := "data", type := "object", default := .null },
        { name := "error", type := "object", default := .null },
        { name := "isFetching", type := "boolean", default := false },
        { name := "lastFetchedAt", type := "number", default := .null }] }]
  initial := "Idle"
  states := [
    { name := "Idle", isInitial := true },
    { name := "Fetching" },
    { name := "Stale" },
    { name := "Fresh" },
    { name := "Error" }]
  events := [
    { key := "FETCH" },
    { key := "FETCH_SUCCESS" },
    { key := "FETCH_ERROR" },
    { key := "REFRESH" },
    { key := "INVALIDATE" }]
  transitions := [
    { sources := .listed ["Idle", "Stale"], target := some "Fetching", event := "FETCH",
      effects := [call "set" ["@entity.isFetching", true], call "set" ["@entity.error", .null]] },
    { sources := .listed ["Fetching"], target := some "Fresh", event := "FETCH_SUCCESS",
      effects := [
        call "set" ["@entity.isFetching", false],
        call "set" ["@entity.data", "@payload.data"],
        call "set" ["@entity.lastFetchedAt", call "time/now" []]] },
    { sources := .listed ["Fetching"], target := some "Error", event := "FETCH_ERROR",
      effects := [
        call "set" ["@entity.isFetching", false],
        call "set" ["@entity.error", "@payload.error"]] },
    { sources := .listed ["Fresh"], target := some "Stale", event := "INVALIDATE",
      effects := [call "set" ["@entity.lastFetchedAt", .null]] },
    { sources := .listed ["Fresh", "Stale", "Error"], target := some "Fetching", event := "REFRESH",
      effects := [call "set" ["@entity.isFetching", true], call "set" ["@entity.error", .null]] }]
  ticks := [
    { name := "StaleCheck", interval := .fixed 1000, appliesTo := ["Fresh"],
      guard := some (call ">=" [call "-" ["@now", "@entity.lastFetchedAt"], "@config.staleTimeMs"]),
      effects := [call "emit" ["INVALIDATE"]] }]
  requiredConfig := [{ name := "entity", type := "entity", description := "Entity type to fetch" }]
  optionalConfig := [
    { name := "staleTimeMs", type := "number", description := "Time until data is stale",
      default := 60000 },
    { name := "cacheKey", type := "string", description := "Cache key for deduplication" }]

/-- Data that is sent and may be sent again after an error. -/
def submit : Definition where
  name := "std/Submit"
  category := "async"
  description := "Async submission with retry capabilities"
  suggestedFor := ["Form submission", "Data saving", "API mutations", "Actions with confirmation"]
  dataEntities := [
    { name := "SubmitState", runtime := true, singleton := true,
      fields := [
        { name := "isSubmitting", type := "boolean", default := false },
        { name := "error", type := "object", default := .null },
        { name := "lastSubmittedData", type := "object", default := .null }] }]
  initial := "Idle"
  states := [
    { name := "Idle", isInitial := true },
    { name := "Submitting" },
    { name := "Success" },
    { name := "Error" }]
  events := [
    { key := "SUBMIT" },
    { key := "SUBMIT_SUCCESS" },
    { key := "SUBMIT_ERROR" },
    { key := "RETRY" },
    { key := "RESET" }]
  transitions := [
    { sources := .listed ["Idle"], target := some "Submitting", event := "SUBMIT",
      effects := [
        call "set" ["@entity.isSubmitting", true],
        call "set" ["@entity.error", .null],
        call "set" ["@entity.lastSubmittedData", "@payload.data"]] },
    { sources := .listed ["Submitting"], target := some "Success", event := "SUBMIT_SUCCESS",
      effects := [
        call "set" ["@entity.isSubmitting", false],
        call "notify" ["@config.successMessage", "success"],
        call "when" ["@config.resetOnSuccess", call "emit" ["RESET"]]] },
    { sources := .listed ["Submitting"], target := some "Error", event := "SUBMIT_ERROR",
      effects := [
        call "set" ["@entity.isSubmitting", false],
        call "set" ["@entity.error", "@payload.error"],
        call "notify" ["@config.errorMessage", "error"]] },
    { sources := .listed ["Error"], target := some "Submitting", event := "RETRY",
      effects := [call "set" ["@entity.isSubmitting", true], call "set" ["@entity.error", .null]] },
    { sources := .listed ["Success", "Error"], target := some "Idle", event := "RESET",
      effects := [
        call "set" ["@entity.isSubmitting", false],
        call "set" ["@entity.error", .null],
        call "set" ["@entity.lastSubmittedData", .null]] }]
  optionalConfig := [
    { name := "successMessage", type := "string", description := "Success notification",
      default := "Saved successfully" },
    { name := "errorMessage", type := "string", description := "Error notification",
      default := "Failed to save" },
    { name := "resetOnSuccess", type := "boolean", description := "Reset to idle on success",
      default := false }]

/-- Attempts with growing delays, up to a number of them. -/
def retry : Definition where
  name := "std/Retry"
  category := "async"
  description := "Automatic retry with exponential backoff"
  suggestedFor := ["Network requests", "Unreliable operations", "Transient failures",
    "Recovery logic"]
  dataEntities := [
    { name := "RetryState", runtime := true, singleton := true,
      fields := [
        { name := "attempt", type := "number", default := 0 },
        { name := "error", type := "object", default := .null },
        { name := "nextRetryAt", type := "number", default := .null }] }]
  initial := "Idle"
  states := [
    { name := "Idle", isInitial := true },
    { name := "Attempting" },
    { name := "Waiting" },
    { name := "Success", isFinal := true },
    { name := "Failed", isFinal := true }]
  events := [
    { key := "START" },
    { key := "ATTEMPT_SUCCESS" },
    { key := "ATTEMPT_ERROR" },
    { key := "RETRY_TICK" },
    { key := "GIVE_UP" },
    { key := "RESET" }]
  transitions := [
    { sources := .listed ["Idle"], target := some "Attempting", event := "START",
      effects := [call "set" ["@entity.attempt", 1], call "set" ["@entity.error", .null]] },
    { sources := .listed ["Attempting"], target := some "Success", event := "ATTEMPT_SUCCESS" },
    { sources := .listed ["Attempting"], target := some "Waiting", event := "ATTEMPT_ERROR",
      guard := some (call "<" ["@entity.attempt", "@config.maxAttempts"]),
      effects := [
        call "set" ["@entity.error", "@payload.error"],
        call "let" [
          .array [
            .array ["delay",
              call "math/min" [
                call "*" ["@config.initialDelayMs",
                  call "math/pow" ["@config.backoffMultiplier", call "-" ["@entity.attempt", 1]]],
                "@config.maxDelayMs"]]],
          call "set" ["@entity.nextRetryAt", call "+" ["@now", "@delay"]]]] },
    { sources := .listed ["Attempting"], target := some "Failed", event := "ATTEMPT_ERROR",
      guard := some (call ">=" ["@entity.attempt", "@config.maxAttempts"]),
      effects := [
        call "set" ["@entity.error", "@payload.error"],
        call "notify" ["All retry attempts failed", "error"]] },
    { sources := .listed ["Waiting"], target := some "Attempting", event := "RETRY_TICK",
      effects := [
        call "set" ["@entity.attempt", call "+" ["@entity.attempt", 1]],
        call "set" ["@entity.nextRetryAt", .null]] },
    { sources := .listed ["Waiting"], target := some "Failed", event := "GIVE_UP",
      effects := [call "notify" ["Retry cancelled", "warning"]] },
    { sources := .listed ["Success", "Failed"], target := some "Idle", event := "RESET",
      effects := [
        call "set" ["@entity.attempt", 0],
        call "set" ["@entity.error", .null],
        call "set" ["@entity.nextRetryAt", .null]] }]
  ticks := [
    { name := "RetryTimer", interval := .frame, appliesTo := ["Waiting"],
      guard := some (call "and" ["@entity.nextRetryAt", call ">=" ["@now", "@entity.nextRetryAt"]]),
      effects := [call "emit" ["RETRY_TICK"]] }]
  optionalConfig := [
    { name := "maxAttempts", type := "number", description := "Maximum retry attempts",
      default := 3 },
    { name := "initialDelayMs", type := "number", description := "Initial retry delay",
      default := 1000 },
    { name := "maxDelayMs", type := "number", description := "Maximum retry delay",
      default := 30000 },
    { name := "backoffMultiplier", type := "number", description := "Backoff multiplier",
      default := 2 }]

/-- Requests at regular intervals. -/
def poll : Definition where
  name := "std/Poll"
  category := "async"
  description := "Periodic polling with start/stop control"
  suggestedFor := ["Real-time updates", "Status checking", "Live data", "Notification polling"]
  dataEntities := [
    { name := "PollState", runtime := true, singleton := true,
      fields := [
        { name := "isPolling", type := "boolean", default := false },
        { name := "pollCount", type := "number", default := 0 },
        { name := "lastPollAt", type := "number", default := .null },
        { name := "error", type := "object", default := .null }] }]
  initial := "Stopped"
  states := [{ name := "Stopped", isInitial := true }, { name := "Polling" }, { name := "Paused" }]
  events := [
    { key := "START" },
    { key := "STOP" },
    { key := "PAUSE" },
    { key := "RESUME" },
    { key := "POLL_TICK" },
    { key := "POLL_SUCCESS" },
    { key := "POLL_ERROR" }]
  transitions := [
    { sources := .listed ["Stopped"], target := some "Polling", event := "START",
      effects := [call "set" ["@entity.isPolling", true], call "set" ["@entity.pollCount", 0]] },
    { sources := .listed ["Polling"], event := "POLL_TICK",
      guard := some (call "or" [
        call "=" ["@config.maxPolls", .null],
        call "<" ["@entity.pollCount", "@config.maxPolls"]]),
      effects := [call "set" ["@entity.lastPollAt", "@now"], call "emit" ["POLL_REQUESTED"]] },
    { sources := .listed ["Polling"], event := "POLL_SUCCESS",
      effects := [
        call "set" ["@entity.pollCount", call "+" ["@entity.pollCount", 1]],
        call "set" ["@entity.error", .null]] },
    { sources := .listed ["Polling"], event := "POLL_ERROR",
      effects := [
        call "set" ["@entity.error", "@payload.error"],
        call "when" ["@config.stopOnError", call "emit" ["STOP"]]] },
    { sources := .listed ["Polling"], target := some "Paused", event := "PAUSE",
      effects := [call "set" ["@entity.isPolling", false]] },
    { sources := .listed ["Paused"], target := some "Polling", event := "RESUME",
      effects := [call "set" ["@entity.isPolling", true]] },
    { sources := .listed ["Polling", "Paused"], target := some "Stopped", event := "STOP",
      effects := [call "set" ["@entity.isPolling", false]] }]
  ticks := [
    { name := "PollInterval", interval := .config "intervalMs", appliesTo := ["Polling"],
      effects := [call "emit" ["POLL_TICK"]] }]
  optionalConfig := [
    { name := "intervalMs", type := "number", description := "Poll interval in ms",
      default := 5000 },
    { name := "stopOnError", type := "boolean", description := "Stop polling on error",
      default := false },
    { name := "maxPolls", type := "number", description := "Maximum poll count (null = infinite)",
      default := .null }]

end Catalogue
end EntityMachines
