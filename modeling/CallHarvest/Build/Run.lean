import CallHarvest.Build.Walk
import CallHarvest.Plugin.Basic

/-!
# Running a build

A build offers the files below a directory to a plugin, as far as they are text, and then lets the
plugin emit its assets.

* `Host` — a plugin, a sink and the file tree they work on.
* `BuildSummary`, `BuildError` — what comes of a build; `BuildError.message` is the wording.
* `Host.run` — runs a build.
-/

namespace CallHarvest

/-- A plugin and a sink, and the file tree they work on. -/
structure Host (π κ : Type) where
  plugin : π
  sink : κ
  tree : FileTree

/-- How many files were offered to the plugin, how many were no text, and how many of those offered
the plugin changed. -/
structure BuildSummary where
  offered : Nat := 0
  skipped : Nat := 0
  transformed : Nat := 0
deriving DecidableEq, Repr

/-- Why a build fails. -/
inductive BuildError
  /-- There is no directory at the path. -/
  | rootNotFound (path : String)
  /-- An asset was not taken. -/
  | emission (error : EmitError)
deriving DecidableEq, Repr

/-- The wording of an error. -/
def BuildError.message : BuildError → String
  | .rootNotFound path => "Build root not found: " ++ Text.quoted path
  | .emission e => e.message

/-- Offers a file to a plugin and counts it.  The id of the module is the absolute path of the
file. -/
def offer {π : Type} [Plugin π] (root : String) (state : BuildSummary × π) (file : SourceFile) :
    BuildSummary × π :=
  let (summary, plugin) := state
  match FileTree.textOf file.content with
  | .error _ => ({ summary with skipped := summary.skipped + 1 }, plugin)
  | .ok code =>
    let (output, plugin') := Plugin.transform plugin code (Path.absolute root file.names)
    ({ summary with
        offered := summary.offered + 1
        transformed := summary.transformed + if output.isTransformed then 1 else 0 }, plugin')

/-- Offers files to a plugin one after the other. -/
def offerAll {π : Type} [Plugin π] (root : String) (plugin : π) (files : List SourceFile) :
    BuildSummary × π :=
  files.foldl (offer root) ({}, plugin)

/-- Runs a build on the directory that a path leads to.  What the plugin learned and what was
written stays if the emission fails. -/
def Host.run {π κ : Type} [Plugin π] [Sink κ] (h : Host π κ) (root : String) :
    Except BuildError BuildSummary × Host π κ :=
  match h.tree.directory? root with
  | none => (.error (.rootNotFound root), h)
  | some place =>
    let (summary, plugin) := offerAll root h.plugin (h.tree.sourceFiles place)
    match (Plugin.finish plugin : Emission κ Unit) (h.sink, h.tree) with
    | (.ok (), (sink, tree)) => (.ok summary, ⟨plugin, sink, tree⟩)
    | (.error e, (sink, tree)) => (.error (.emission e), ⟨plugin, sink, tree⟩)

end CallHarvest
