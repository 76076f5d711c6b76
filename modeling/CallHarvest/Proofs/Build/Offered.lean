import CallHarvest.Build.Run

/-!
# What a build offers to a plugin

A build is a walk over files; to its plugin it is a sequence of modules, and nothing but that.

* `ScriptModule` — a module as a plugin is offered it.
* `transformAll` — a plugin after a sequence of modules.
* `FileTree.modules`, `FileTree.modules_eq` — the modules that a build offers.
* `Host.run_plugin` — the plugin after a build is the plugin after these modules.
-/

namespace CallHarvest

/-- The code of a module and its id. -/
structure ScriptModule where
  code : String
  id : String

/-- A plugin after it was offered modules one after the other. -/
def transformAll {π : Type} [Plugin π] (p : π) (ms : List ScriptModule) : π :=
  ms.foldl (fun p m => (Plugin.transform p m.code m.id).2) p

@[simp] theorem transformAll_nil {π : Type} [Plugin π] (p : π) : transformAll p [] = p := rfl

@[simp] theorem transformAll_cons {π : Type} [Plugin π] (p : π) (m : ScriptModule)
    (ms : List ScriptModule) :
    transformAll p (m :: ms) = transformAll (Plugin.transform p m.code m.id).2 ms := rfl

/-- The module in a file, if the file is text. -/
def SourceFile.module? (root : String) (file : SourceFile) : Option ScriptModule :=
  match FileTree.textOf file.content with
  | .error _ => none
  | .ok code => some ⟨code, Path.absolute root file.names⟩

/-- The modules that a build on a directory offers, in the order of the walk. -/
def FileTree.modules (t : FileTree) (root : String) (place : Place) : List ScriptModule :=
  (t.sourceFiles place).filterMap (SourceFile.module? root)

theorem offer_plugin {π : Type} [Plugin π] (root : String) (state : BuildSummary × π)
    (file : SourceFile) :
    (offer root state file).2 = transformAll state.2 (file.module? root).toList := by
  unfold offer SourceFile.module?
  cases FileTree.textOf file.content <;> rfl

theorem offerAll_plugin {π : Type} [Plugin π] (root : String) (p : π) (files : List SourceFile) :
    (offerAll root p files).2 = transformAll p (files.filterMap (SourceFile.module? root)) := by
  have key : ∀ state : BuildSummary × π, (files.foldl (offer root) state).2 =
      transformAll state.2 (files.filterMap (SourceFile.module? root)) := by
    induction files with
    | nil =>
      intro state
      rfl
    | cons file files ih =>
      intro state
      rw [List.foldl_cons, ih, offer_plugin]
      cases hm : file.module? root with
      | none => rw [List.filterMap_cons_none hm]; rfl
      | some m => rw [List.filterMap_cons_some hm]; rfl
  exact key ({}, p)

/-- **To its plugin a build is a sequence of modules.**  Whether the assets are taken or not, the
plugin keeps what it learned from them. -/
theorem Host.run_plugin {π κ : Type} [Plugin π] [Sink κ] (h : Host π κ) {root : String}
    {place : Place} (hroot : h.tree.directory? root = some place) :
    (h.run root).2.plugin = transformAll h.plugin (h.tree.modules root place) := by
  rw [FileTree.modules, ← offerAll_plugin]
  unfold Host.run
  rw [hroot]
  simp only
  split <;> rfl

end CallHarvest
