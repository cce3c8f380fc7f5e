import EvmContract.Basic
import EvmContract.Table
import EvmContract.State
import EvmContract.Update
import EvmContract.Gc
import EvmContract.GcSpec
import EvmContract.GcSplit
import EvmContract.GcCollect
import EvmContract.GcCommute
import EvmContract.Run
import EvmContract.Invariants
import EvmContract.Reads
import EvmContract.Refinement
import EvmContract.Replay
import EvmContract.RefCount
import EvmContract.Lifecycle
import EvmContract.Cache
import EvmContract.CodeContent
import EvmContract.Transitions
import EvmContract.GetLogs
