import EntityMachines.Expr
import EntityMachines.Machine.Definition

/-!
Behaviors of games: health, scores and the loop that drives frames.
-/
namespace EntityMachines
namespace Catalogue

open EntityMachines.Expr

/-- Health points, lost by damage and restored by healing. -/
def health : Definition where
  name := "std/Health"
  category := "game-entity"
  description := "Entity health with damage, healing, invulnerability, and death"
  suggestedFor := ["Player characters", "Enemies", "Destructible objects", "Bosses"]
  dataEntities := [
    { name := "HealthState", runtime := true,
      fields := [
        { name := "currentHealth", type := "number", default := 100 },
        { name := "maxHealth", type := "number", default := 100 },
        { name := "isInvulnerable", type := "boolean", default := false },
        { name := "lastDamageTime", type := "number", default := 0 }] }]
  initial := "Alive"
  states := [
    { name := "Alive", isInitial := true },
    { name := "Damaged" },
    { name := "Invulnerable" },
    { name := "Dead" }]
  events := [
    { key := "INIT" },
    { key := "DAMAGE" },
    { key := "HEAL" },
    { key := "DIE" },
    { key := "RESPAWN" },
    { key := "INVULNERABILITY_END" }]
  transitions := [
    { target := some "Alive", event := "INIT",
      effects := [
        call "set" ["@entity.currentHealth", "@config.maxHealth"],
        call "set" ["@entity.maxHealth", "@config.maxHealth"],
        call "set" ["@entity.isInvulnerable", false],
        call "when" ["@config.showHealthBar",
          call "render-ui" ["hud.health",
            .map [("type", "health-bar")],
            call "object/set" [
              call "object/set" [.map [], "current", "@entity.currentHealth"],
              "max",
              "@entity.maxHealth"]]]] },
    { sources := .listed ["Alive"], target := some "Damaged", event := "DAMAGE",
      guard := some (call "not" ["@entity.isInvulnerable"]),
      effects := [
        call "set" ["@entity.currentHealth",
          call "math/max" [0, call "-" ["@entity.currentHealth", "@payload.amount"]]],
        call "set" ["@entity.lastDamageTime", "@now"],
        call "if" [
          call "<=" ["@entity.currentHealth", 0],
          call "emit" ["DIE"],
          call "do" [
            call "set" ["@entity.isInvulnerable", true],
            call "render-ui" ["entity.flash", .map [("type", "damage-flash")]]]]] },
    { sources := .listed ["Damaged", "Invulnerable"], target := some "Alive",
      event := "INVULNERABILITY_END",
      effects := [call "set" ["@entity.isInvulnerable", false]] },
    { sources := .listed ["Alive", "Damaged", "Invulnerable"], event := "HEAL",
      effects := [
        call "set" ["@entity.currentHealth",
          call "math/min" ["@entity.maxHealth",
            call "+" ["@entity.currentHealth", "@payload.amount"]]],
        call "render-ui" ["entity.effect", .map [("type", "heal-effect")]]] },
    { sources := .listed ["Alive", "Damaged", "Invulnerable"], target := some "Dead",
      event := "DIE",
      effects := [
        call "set" ["@entity.currentHealth", 0],
        call "emit" ["@config.onDeath", call "object/set" [.map [], "entityId", "@entity.id"]],
        call "render-ui" ["entity.sprite", .map [("type", "death-animation")]]] },
    { sources := .listed ["Dead"], target := some "Alive", event := "RESPAWN",
      effects := [call "emit" ["INIT"]] }]
  ticks := [
    { name := "InvulnerabilityTimer", interval := .frame,
      guard := some (call "and" ["@entity.isInvulnerable",
        call ">" [call "-" ["@now", "@entity.lastDamageTime"], "@config.invulnerabilityTime"]]),
      effects := [call "emit" ["INVULNERABILITY_END"]] }]
  requiredConfig := [
    { name := "maxHealth", type := "number", description := "Maximum health points" }]
  optionalConfig := [
    { name := "invulnerabilityTime", type := "number",
      description := "Invulnerability duration after damage (ms)",
      default := 500 },
    { name := "onDeath", type := "event", description := "Event to emit on death",
      default := "ENTITY_DIED" },
    { name := "showHealthBar", type := "boolean", description := "Render health bar",
      default := true }]

/-- Points, with a multiplier that grows by combos. -/
def score : Definition where
  name := "std/Score"
  category := "game-entity"
  description := "Score tracking with points, combos, and multipliers"
  suggestedFor := ["Arcade games", "Puzzle games", "Platformers with collectibles",
    "Competitive games"]
  dataEntities := [
    { name := "ScoreState", runtime := true, singleton := true,
      fields := [
        { name := "currentScore", type := "number", default := 0 },
        { name := "highScore", type := "number", default := 0 },
        { name := "comboCount", type := "number", default := 0 },
        { name := "multiplier", type := "number", default := 1 },
        { name := "lastScoreTime", type := "number", default := 0 }] }]
  initial := "Active"
  states := [{ name := "Active", isInitial := true }]
  events := [
    { key := "INIT" },
    { key := "ADD_POINTS" },
    { key := "COMBO_HIT" },
    { key := "COMBO_BREAK" },
    { key := "RESET" },
    { key := "SAVE_HIGH_SCORE" }]
  transitions := [
    { event := "INIT",
      effects := [
        call "set" ["@entity.currentScore", 0],
        call "set" ["@entity.comboCount", 0],
        call "set" ["@entity.multiplier", 1]] },
    { event := "ADD_POINTS",
      effects := [
        call "set" ["@entity.currentScore",
          call "+" ["@entity.currentScore", call "*" ["@payload.points", "@entity.multiplier"]]],
        call "set" ["@entity.lastScoreTime", "@now"]] },
    { event := "COMBO_HIT",
      effects := [
        call "set" ["@entity.comboCount", call "+" ["@entity.comboCount", 1]],
        call "set" ["@entity.multiplier",
          call "math/min" ["@config.maxMultiplier",
            call "+" [1, call "math/floor" [call "/" ["@entity.comboCount", 5]]]]],
        call "set" ["@entity.lastScoreTime", "@now"]] },
    { event := "COMBO_BREAK",
      effects := [call "set" ["@entity.comboCount", 0], call "set" ["@entity.multiplier", 1]] },
    { event := "RESET",
      effects := [
        call "when" [
          call ">" ["@entity.currentScore", "@entity.highScore"],
          call "set" ["@entity.highScore", "@entity.currentScore"]],
        call "emit" ["INIT"]] },
    { event := "SAVE_HIGH_SCORE",
      guard := some (call ">" ["@entity.currentScore", "@entity.highScore"]),
      effects := [
        call "set" ["@entity.highScore", "@entity.currentScore"],
        call "when" ["@config.persistHighScore",
          call "persist" ["update",
            call "object/set" [.map [], "highScore", "@entity.highScore"]]]] }]
  ticks := [
    { name := "ComboTimeout", interval := .frame,
      guard := some (call "and" [
        call ">" ["@entity.comboCount", 0],
        call ">" [call "-" ["@now", "@entity.lastScoreTime"], "@config.comboTimeWindow"]]),
      effects := [call "emit" ["COMBO_BREAK"]] }]
  optionalConfig := [
    { name := "comboTimeWindow", type := "number", description := "Time window for combos (ms)",
      default := 2000 },
    { name := "maxMultiplier", type := "number", description := "Maximum combo multiplier",
      default := 10 },
    { name := "persistHighScore", type := "boolean", description := "Save high score to storage",
      default := true }]

/-- The loop that counts frames. -/
def gameLoop : Definition where
  name := "std/GameLoop"
  category := "game-core"
  description := "Master game loop coordinator running at 60fps"
  suggestedFor := ["All real-time games", "Platformers", "Action games", "Endless runners"]
  dataEntities := [
    { name := "GameLoopState", runtime := true, singleton := true,
      fields := [
        { name := "frameCount", type := "number", default := 0 },
        { name := "deltaTime", type := "number", default := 16 },
        { name := "elapsedTime", type := "number", default := 0 }] }]
  initial := "Stopped"
  states := [{ name := "Stopped", isInitial := true }, { name := "Running" }, { name := "Paused" }]
  events := [{ key := "START" }, { key := "STOP" }, { key := "PAUSE" }, { key := "RESUME" }]
  transitions := [
    { sources := .listed ["Stopped"], target := some "Running", event := "START",
      effects := [call "set" ["@entity.frameCount", 0], call "set" ["@entity.elapsedTime", 0]] },
    { sources := .listed ["Running"], target := some "Paused", event := "PAUSE" },
    { sources := .listed ["Paused"], target := some "Running", event := "RESUME" },
    { sources := .listed ["Running", "Paused"], target := some "Stopped", event := "STOP" }]
  ticks := [
    { name := "GameTick", priority := 100, interval := .frame,
      guard := some (call "=" ["@state", "Running"]),
      effects := [
        call "set" ["@entity.frameCount", call "+" ["@entity.frameCount", 1]],
        call "set" ["@entity.elapsedTime", call "+" ["@entity.elapsedTime", "@entity.deltaTime"]],
        call "emit" ["GAME_TICK",
          call "object/set" [
            call "object/set" [.map [], "frame", "@entity.frameCount"],
            "delta",
            "@entity.deltaTime"]]] }]
  optionalConfig := [
    { name := "targetFps", type := "number", description := "Target frames per second",
      default := 60 },
    { name := "fixedTimestep", type := "boolean", description := "Use fixed timestep",
      default := true }]

end Catalogue
end EntityMachines
