import GcModule.Sync.Header
import GcModule.Sync.ObjectSpace
import GcModule.Sync.Threads
import GcModule.Sync.Exclusion
import GcModule.Sync.Allocation
import GcModule.Sync.Refinement
import GcModule.Sync.Progress
import GcModule.Sync.Completion
import GcModule.Sync.Consistency
import GcModule.Trace.Grammar
import GcModule.Trace.Soundness
