import FeatureDigest.FileTree.Edit
import FeatureDigest.Main
import FeatureDigest.Proofs.Command.Colours
import FeatureDigest.Proofs.Command.Flags
import FeatureDigest.Proofs.Command.Ignoring
import FeatureDigest.Proofs.Command.Outcome
import FeatureDigest.Proofs.Command.Override
import FeatureDigest.Proofs.Command.Transparent
import FeatureDigest.Proofs.Command.Written
import FeatureDigest.Proofs.Config.Ancestry
import FeatureDigest.Proofs.Config.Discovery
import FeatureDigest.Proofs.Config.Extensions
import FeatureDigest.Proofs.Config.Positions
import FeatureDigest.Proofs.Gherkin.Layout
import FeatureDigest.Proofs.Gherkin.Priority
import FeatureDigest.Proofs.Gherkin.Provenance
import FeatureDigest.Proofs.Gherkin.Relaid
import FeatureDigest.Proofs.Gherkin.Split
import FeatureDigest.Proofs.Report.Aggregate
import FeatureDigest.Proofs.Report.Display
import FeatureDigest.Proofs.Report.Json
import FeatureDigest.Proofs.Report.Listing
import FeatureDigest.Proofs.Report.Named
import FeatureDigest.Proofs.Scan.Edits
import FeatureDigest.Proofs.Scan.FolderPatterns
import FeatureDigest.Proofs.Scan.Pruning
import FeatureDigest.Proofs.Scan.Respelled
