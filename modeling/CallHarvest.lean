import CallHarvest.Asset.Memory
import CallHarvest.Asset.OutputDir
import CallHarvest.Build.Run
import CallHarvest.Call.Find
import CallHarvest.FileTree.Listing
import CallHarvest.Glob.Word
import CallHarvest.Manifest
import CallHarvest.Options.Load
import CallHarvest.Options.Write
import CallHarvest.Plugin.Harvester
import CallHarvest.Proofs.Call.Exhaustive
import CallHarvest.Proofs.Call.LeftmostShortest
import CallHarvest.Proofs.Plugin.Harvest
import CallHarvest.Proofs.Call.Coverage
import CallHarvest.Proofs.Call.Ranges
import CallHarvest.Proofs.Call.Unwrapped
import CallHarvest.Proofs.Manifest.Normalize
import CallHarvest.Proofs.Manifest.Decoding
import CallHarvest.Proofs.FileTree.Kind
import CallHarvest.Proofs.FileTree.Route
import CallHarvest.Proofs.FileTree.Change
import CallHarvest.Proofs.Asset.Emission
import CallHarvest.Proofs.Asset.LastWritten
import CallHarvest.Proofs.Ignore.SameLook
import CallHarvest.Proofs.Build.Listing
import CallHarvest.Proofs.Build.Hooks
import CallHarvest.Proofs.Plugin.Rerun
import CallHarvest.Proofs.Call.OwnCommas
import CallHarvest.Proofs.Call.Replacements
import CallHarvest.Proofs.Options.Agreement
import CallHarvest.Proofs.Json.Quote
import CallHarvest.Proofs.Options.RoundTrip
import CallHarvest.Proofs.Path.BaseDirectory
import CallHarvest.Proofs.Plugin.Monotone
import CallHarvest.Proofs.Manifest.Order
import CallHarvest.Proofs.Glob.Components
import CallHarvest.Proofs.Options.Edits
