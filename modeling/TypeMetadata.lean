import TypeMetadata.Emit.Field
import TypeMetadata.Emit.Metadata
import TypeMetadata.Emit.Nominal
import TypeMetadata.Emit.Section
import TypeMetadata.Native.StandIn
import TypeMetadata.Reflection.Initializer
import TypeMetadata.Reflection.Registry
import TypeMetadata.Proofs.RegistryIndex
import TypeMetadata.Proofs.Holdings
import TypeMetadata.Proofs.ClassRoundTrip
import TypeMetadata.Proofs.FieldRoundTrip
import TypeMetadata.Proofs.EnumCases
import TypeMetadata.Proofs.AttachedConformances
import TypeMetadata.Proofs.SignatureParts
import TypeMetadata.Proofs.SignatureSpelling
import TypeMetadata.Proofs.Materialization
import TypeMetadata.Proofs.ByteStore
import TypeMetadata.Proofs.HeapSafety
import TypeMetadata.Proofs.MetadataRoundTrip
import TypeMetadata.Proofs.EnumCopies
import TypeMetadata.Proofs.RelativePatches
import TypeMetadata.Proofs.SectionRoundTrip
import TypeMetadata.Proofs.SectionLoading
import TypeMetadata.Proofs.NestedTypes
import TypeMetadata.Proofs.AttachedProtocols
import TypeMetadata.Proofs.RegistryGrowth
import TypeMetadata.Proofs.SteadyImage
import TypeMetadata.Proofs.QuietLoads
import TypeMetadata.Proofs.LoadingTwice
import TypeMetadata.Proofs.LoadingOrder
import TypeMetadata.Proofs.GenericTypes
import TypeMetadata.Proofs.GenericUses
import TypeMetadata.Proofs.StableReadings
import TypeMetadata.Proofs.CellDirections
import TypeMetadata.Proofs.AppendOnly
import TypeMetadata.Proofs.VtableWalk
import TypeMetadata.Proofs.NearestModule
import TypeMetadata.Proofs.FieldChecks
import TypeMetadata.Proofs.TextReading
import TypeMetadata.Proofs.RegisterArguments
import TypeMetadata.Proofs.BoundInitializers
import TypeMetadata.Proofs.ArgumentSplitting
import TypeMetadata.Proofs.SignatureCuts
import TypeMetadata.Proofs.CaseTable
import TypeMetadata.Proofs.StructCopies
import TypeMetadata.Proofs.KeptAnswers
import TypeMetadata.Proofs.FirstAnswers
import TypeMetadata.Proofs.FunctionDispatch
import TypeMetadata.Proofs.Selectors
import TypeMetadata.Proofs.AlignmentPadding
