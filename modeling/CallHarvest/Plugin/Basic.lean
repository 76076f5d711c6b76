import CallHarvest.Asset.Basic

/-!
# Plugins

A build offers each module of a project to a plugin, and lets it emit its assets at the end.

* `TransformOutput` — what a plugin makes of a module.
* `Plugin` — what a build asks of a plugin.
-/

namespace CallHarvest

/-- What a plugin makes of the code of a module. -/
inductive TransformOutput
  | unchanged
  | transformed (code : String)
deriving DecidableEq, Repr

/-- Whether the code was changed. -/
def TransformOutput.isTransformed : TransformOutput → Bool
  | .unchanged => false
  | .transformed _ => true

/-- What a build asks of a plugin. -/
class Plugin (π : Type) where
  /-- The name of the plugin. -/
  name : π → String
  /-- Takes a module. -/
  transform : π → (code id : String) → TransformOutput × π
  /-- Emits assets after all modules were offered. -/
  finish : π → {κ : Type} → [Sink κ] → Emission κ Unit

end CallHarvest
