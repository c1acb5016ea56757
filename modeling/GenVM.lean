import GenVM.Lib.Uleb
import GenVM.Lib.Utf8
import GenVM.Lib.Except
import GenVM.Lib.Abi
import GenVM.Lib.Rounds
import GenVM.Lib.Regroup
import GenVM.Lib.Effect
import GenVM.Calldata.Types
import GenVM.Calldata.Head
import GenVM.Calldata.Grammar
import GenVM.Calldata.Parser
import GenVM.Calldata.RoundTrip
import GenVM.Calldata.Codec
import GenVM.Calldata.Agree
import GenVM.Py.Calldata
import GenVM.Py.Objects
import GenVM.Py.Event
import GenVM.Py.Evm
import GenVM.Py.EvmRun
import GenVM.Py.EvmOrder
import GenVM.Py.EvmProbe
import GenVM.Py.EvmCodec
import GenVM.Store.Refine
import GenVM.Store.Replay
import GenVM.Fees.Conserve
import GenVM.Fees.Exact
import GenVM.Fees.Abi
import GenVM.Fees.Sums
import GenVM.Vm.Run
import GenVM.Vm.Value
import GenVM.Vm.Budget
import GenVM.Vm.Capability
import GenVM.Vm.Nondet
import GenVM.Vm.Result
import GenVM.Wasi.Vfs
import GenVM.Wasi.Mapping
import GenVM.Wasi.Memlimiter
import GenVM.Sdk.Arrays
import GenVM.Sdk.Gvm32
import GenVM.Lib.MinRace
import GenVM.Vm.Queue
import GenVM.Storage.AvlShared
import GenVM.Storage.AvlHost
import GenVM.Storage.DynArrayRefine
import GenVM.Storage.Layout
import GenVM.VecDb.Knn
import GenVM.Storage.Places
import GenVM.Runners.Ustar
import GenVM.Runners.UstarWrite
import GenVM.Lib.Dfs
import GenVM.Runners.Actions
import GenVM.Runners.Ids
import GenVM.Runners.Scope
import GenVM.Runners.Cache
import GenVM.Vm.Errors
import GenVM.Vm.LockedSlots
import GenVM.Storage.Raising
import GenVM.Storage.Stale
import GenVM.Fees.Expr
import GenVM.Fees.Render
import GenVM.Fees.Alike
import GenVM.Fees.ByNeed
import GenVM.Runners.FloatsToSoft
import GenVM.Runners.FloatsIndex
import GenVM.Wasi.Json
import GenVM.Store.Pieces
