import CallHarvest.Asset.Basic

/-!
# Assets in memory

* `Memory` — a sink that keeps all assets in their order, also those of one name.
* `Memory.source?` — the text of an asset.
-/

namespace CallHarvest

/-- The assets that were emitted. -/
structure Memory where
  assets : List Asset := []
deriving DecidableEq, Repr

namespace Memory

instance : Inhabited Memory := ⟨{}⟩

/-- The text of the first asset of a name. -/
def source? (m : Memory) (name : String) : Option String :=
  (m.assets.find? fun a => a.name == name).map Asset.source

instance : Sink Memory where
  emit asset := fun (m, t) => (.ok (), (⟨m.assets ++ [asset]⟩, t))

end Memory

end CallHarvest
