import CallHarvest.Call.Find
import CallHarvest.Manifest
import CallHarvest.Options.Check
import CallHarvest.PathFilter
import CallHarvest.Plugin.Basic

/-!
# The harvester

The harvester is the plugin that keeps the localization calls of all scanned modules, and emits
the manifest of them.  It never changes a module.

* `Harvester` — a filter, a mode, and the registry of the calls found so far.
* `Harvester.ofOptions` — the harvester for options.
* `Harvester.scan` — a harvester after one more module.
-/

namespace CallHarvest

/-- Keeps the calls of the modules that it is offered. -/
structure Harvester where
  filter : PathFilter := {}
  mode : Call.Mode := .lazy
  registry : Registry := .empty

/-- Why there is no harvester for options. -/
inductive SetupError
  | invalid (errors : List OptionsError)
  | filter (error : FilterError)
deriving DecidableEq, Repr

namespace Harvester

instance : Inhabited Harvester := ⟨{}⟩

/-- The name of the plugin. -/
def pluginName : String := "extract-drupal-t"

/-- The harvester for options, which are checked first. -/
def ofOptions (o : Options) : Except SetupError Harvester :=
  match o.errors with
  | [] =>
    match PathFilter.ofOptions o with
    | .ok filter => .ok { filter, mode := o.mode }
    | .error e => .error (.filter e)
  | errors => .error (.invalid errors)

/-- The texts of the calls in a module. -/
def callTexts (h : Harvester) (code : String) : List String :=
  (Call.findAll h.mode code).map Call.Match.text

/-- A harvester after a module: if the module is scanned, its calls are in the registry. -/
def scan (h : Harvester) (code id : String) : Harvester :=
  if h.filter.shouldScan id then { h with registry := h.registry.insertAll (h.callTexts code) }
  else h

/-- The manifest of the calls found so far. -/
def manifest (h : Harvester) : Manifest :=
  .ofRegistry h.registry

/-- The manifest as an asset. -/
def asset (h : Harvester) : Asset where
  name := Manifest.fileName
  source := h.manifest.render

instance : Plugin Harvester where
  name _ := pluginName
  transform h code id := (.unchanged, h.scan code id)
  finish h := Sink.emit h.asset

end Harvester

end CallHarvest
