import BuildComposition.Json.Reader
import BuildComposition.Main
import BuildComposition.Proofs.Compose.GovernedSettings
import BuildComposition.Proofs.Compose.UnitForest
import BuildComposition.Proofs.Graph.CycleDetection
import BuildComposition.Proofs.Graph.Determinacy
import BuildComposition.Proofs.Graph.ErrorLocation
import BuildComposition.Proofs.Graph.RepeatedCalls
import BuildComposition.Proofs.Graph.Siblings
import BuildComposition.Proofs.Compose.DepthLimit
import BuildComposition.Proofs.Compose.SettingsOrder
import BuildComposition.Proofs.Graph.SkippedDescriptors
import BuildComposition.Proofs.Graph.Aliases
import BuildComposition.Proofs.Compose.CanonicalReferences
import BuildComposition.Proofs.Script.LiteralCode
import BuildComposition.Proofs.Script.Construction
import BuildComposition.Proofs.Compose.LiteralRoots
import BuildComposition.Proofs.Compose.RootFiles
import BuildComposition.Proofs.Compose.UnitDeclarations
import BuildComposition.Proofs.Compose.DeclaredOrder
import BuildComposition.Proofs.Compose.UnitSettings
import BuildComposition.Proofs.Compose.RootEntries
import BuildComposition.Proofs.Encoding.PlanText
import BuildComposition.Proofs.Script.ProjectCalls
import BuildComposition.Proofs.Text.Ascii
import BuildComposition.Proofs.Compose.RunInputs
import BuildComposition.Proofs.Compose.UnitDirectories
import BuildComposition.Proofs.Script.CallTraces
import BuildComposition.Proofs.Script.PlainTables
import BuildComposition.Proofs.Script.ReentrantCalls
import BuildComposition.Proofs.Script.Environments
import BuildComposition.Proofs.Compose.OverrideLookup
import BuildComposition.Proofs.Compose.RepeatedEntries
import BuildComposition.Proofs.Graph.Termination
import BuildComposition.Proofs.Config.SettingsSteps
import BuildComposition.Proofs.CommandLine.PlanFormats
