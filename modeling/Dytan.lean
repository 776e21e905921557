import Dytan.TwoRunProofs
import Dytan.StaleScratchProofs
import Dytan.ControlCoverageProofs
import Dytan.FlagsProofs
import Dytan.ControlflowProofs
import Dytan.BitsetOperationsProofs
import Dytan.TagIndexProofs
import Dytan.SyscallFunctionsProofs
import Dytan.TaintSourceProofs
import Dytan.PerOffsetProofs
import Dytan.PathMonitorProofs
import Dytan.NetworkSourceProofs
import Dytan.FailedCallProofs
import Dytan.OtherWritersProofs
import Dytan.ThreadProofs
import Dytan.TaintGeneratorProofs
import Dytan.SyscallMonitorProofs
import Dytan.NetworkOrderProofs
import Dytan.SourceOperandProofs
import Dytan.CompareExchangeProofs
import Dytan.SizeInvariantProofs
import Dytan.RoutineFlowProofs
import Dytan.StackRoundTripProofs
import Dytan.PostDominatorReachProofs
import Dytan.BlockIntervalsProofs
import Dytan.PrunedTagsProofs
import Dytan.RulesFileProofs
import Dytan.SourceSetupProofs
import Dytan.BitsetAssignProofs
import Dytan.CmovChecksProofs
import Dytan.DefaultObserverProofs
import Dytan.OffsetFileProofs
import Dytan.TagOffsetsProofs
import Dytan.TagNodesProofs
import Dytan.NumeralsProofs
import Dytan.AssignmentLogProofs
import Dytan.LogTruthProofs
import Dytan.ArgumentTaintProofs
import Dytan.FlowPathsProofs
import Dytan.TwoPhaseProofs
import Dytan.ToolProofs
import Dytan.ToolHistoryProofs
import Dytan.ProvenanceProofs
import Dytan.InterferenceProofs
import Dytan.InstructionResultsProofs
import Dytan.ExplicitFlowProofs
import Dytan.ReadBackProofs
import Dytan.TaintReportProofs
import Dytan.DumpTaintsProofs
import Dytan.ConfigDocumentProofs
import Dytan.UserTagsProofs
import Dytan.RunReportProofs
import Dytan.ControlDependenceProofs
import Dytan.ImplicitFlowProofs
