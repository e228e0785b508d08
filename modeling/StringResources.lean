import StringResources.Disk.Arrange
import StringResources.Main
import StringResources.Proofs.Disk.Atomic
import StringResources.Proofs.Merge.Marked
import StringResources.Proofs.Merge.Scopes
import StringResources.Proofs.Sync.Survival
import StringResources.Proofs.Disk.Ends
import StringResources.Proofs.Disk.Replaceable
import StringResources.Proofs.Merge.Growth
import StringResources.Proofs.Sync.DryRun
import StringResources.Proofs.Sync.Rerun
import StringResources.Proofs.Sync.Order
import StringResources.Proofs.Resource.Slices
import StringResources.Proofs.Merge.Total
import StringResources.Proofs.Merge.Preserved
import StringResources.Proofs.Resource.Final
import StringResources.Proofs.Merge.Appended
import StringResources.Proofs.Sync.Encoding
import StringResources.Proofs.Merge.Partition
import StringResources.Proofs.Sync.Checked
import StringResources.Proofs.CommandLine.Flags
import StringResources.Proofs.CommandLine.Output
import StringResources.Proofs.CommandLine.Written
import StringResources.Proofs.Report.Listing
import StringResources.Proofs.Report.Decoded
