import Batchgen.HostPagedKV.WholeBatch
import Batchgen.PrefixCache.Protection
import Batchgen.PrefixCache.CallRuns
import Batchgen.Server.BatchStatus
import Batchgen.Server.BatchOutput
import Batchgen.Server.Quiesce
import Batchgen.Server.RestartRuns
import Batchgen.GpuPagedKV.Admission
import Batchgen.GpuPagedKV.PageTable
import Batchgen.Migration.Rounds
import Batchgen.WavePlan.Loads
import Batchgen.WavePlan.Levels
import Batchgen.WeightBuffer.Calls
import Batchgen.Worker.Reentry
import Batchgen.Worker.HostOwnedPages
import Batchgen.Worker.GrowthEvictions
import Batchgen.ParameterServer.WeightLoadPlan
