import DaceFortran.Builder.IterationSpace
import DaceFortran.Builder.FlatBatchOrder
import DaceFortran.Fission.FissionPreserves
import DaceFortran.Pruning.PrunePreserves
import DaceFortran.ConstEval.ConstEvalAgrees
import DaceFortran.GlobalConstants.GlobalConstantsSound
import DaceFortran.ArgumentConstants.MakeArgumentConstants
import DaceFortran.ArgumentConstants.ArgumentConstantsSound
import DaceFortran.AllocSites.GroupsByReachingSites
import DaceFortran.StorageGuard.StorageGuard
import DaceFortran.RecordPacking.DeviceImages
import DaceFortran.FrozenSignature.Refreeze
import DaceFortran.AccTransfers.PlanAccTransfers
import DaceFortran.ShapeScalars.LiveExtents
import DaceFortran.GlobalReads.RecordMajorIndex
import DaceFortran.GuardPrune.GuardPrunePreserves
import DaceFortran.CopyFold.FoldCopyInOut
import DaceFortran.Preprocess.MergeUsedModules
import DaceFortran.Preprocess.StripResolves
import DaceFortran.CountedLoops.RestorePreserves
import DaceFortran.SpecializeGlobals.SpecializePreserves
import DaceFortran.SelectCase.LowerFirSelectCase
import DaceFortran.DispatchPrune.PruneUnreachable
import DaceFortran.SinkStores.SinkGoal
import DaceFortran.Preprocess.KindUses
import DaceFortran.Unformatted.RecordsRoundTrip
import DaceFortran.Specialization.RecordedCalls
import DaceFortran.Residency.MaskCpp
import DaceFortran.ArraySplit.SplitKeeps
import DaceFortran.Builder.SubscriptsLower
import DaceFortran.Builder.ElseIfKeeps
import DaceFortran.Builder.StatementOrdered
import DaceFortran.AccMarkers.MarkersRoundTrip
import DaceFortran.Branches.PruneMeaning
import DaceFortran.SelectType.SelectedBranches
import DaceFortran.DataInit.DataCalls
import DaceFortran.GlobalInit.InitReproduces
import DaceFortran.BoundCalls.BoundCallsKeep
import DaceFortran.StatementFunctions.LiftedValues
import DaceFortran.ArmModules.MergedNames
import DaceFortran.IncallScratch.BoxExact
import DaceFortran.VectorSubscript.ExpandScatter
import DaceFortran.ArrayConstructors.MaterialiseConstructors
import DaceFortran.JoinStates.JoinStencilStates
import DaceFortran.OutsideRefs.LinesLost
import DaceFortran.Accumulations.AnyOrder
import DaceFortran.UnrollMaps.UnrollEquals
import DaceFortran.ShapeHints.PropagateShapes
import DaceFortran.HostWork.HostSmallWork
import DaceFortran.UnionNest.UnionNest
import DaceFortran.OffsetCopy.DeriveOffsets
import DaceFortran.TaskletReads.ReadsComputed
import DaceFortran.Preprocess.BalanceCpp
import DaceFortran.AssumedRank.FoldAssumedRankQueries
