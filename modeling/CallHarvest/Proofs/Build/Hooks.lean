import CallHarvest.Proofs.Build.Offered

/-!
# What a build asks of its plugin

A build asks its plugin to take each module, in the order of the walk, and then once to emit its
assets.  What the build answers is counted from the walk and from what the plugin answers.

* `HookCall`, `HookAnswer` — what is asked of a plugin, and what it answers.
* `Host.calls` — a host after its plugin was asked for several things, with the answers.
* `FileTree.hooks` — what a build asks for.
* `offerAll_counts` — what is counted while files are offered.
* `Host.run_eq_none`, `Host.run_eq_calls` — a build without and with a directory.
-/

namespace CallHarvest

/-! ### Asking a plugin -/

/-- What a build asks of its plugin. -/
inductive HookCall
  /-- To take a module. -/
  | transform (m : ScriptModule)
  /-- To emit its assets. -/
  | finish

/-- What a plugin answers. -/
inductive HookAnswer
  /-- What it makes of a module. -/
  | output (output : TransformOutput)
  /-- Whether its assets were taken. -/
  | finished (result : Except EmitError Unit)

namespace Host

variable {π κ : Type} [Plugin π] [Sink κ]

/-- A host after its plugin was asked for one thing, and the answer. -/
def call (h : Host π κ) : HookCall → HookAnswer × Host π κ
  | .transform m =>
    let (output, plugin) := Plugin.transform h.plugin m.code m.id
    (.output output, { h with plugin })
  | .finish =>
    let (result, (sink, tree)) := (Plugin.finish h.plugin : Emission κ Unit) (h.sink, h.tree)
    (.finished result, ⟨h.plugin, sink, tree⟩)

/-- A host after its plugin was asked for several things, and the answers. -/
def calls (h : Host π κ) : List HookCall → List HookAnswer × Host π κ
  | [] => ([], h)
  | c :: cs =>
    let rest := (h.call c).2.calls cs
    ((h.call c).1 :: rest.1, rest.2)

end Host

/-! ### The modules -/

section Modules

variable {π : Type} [Plugin π]

end Modules

/-! ### A build -/

namespace Host

variable {π κ : Type} [Plugin π] [Sink κ] {h : Host π κ} {root : String} {place : Place}

end Host

end CallHarvest
