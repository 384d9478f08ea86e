import Elgate.Arch.RuntimeMode

/-!
# Building worker threads

`src/arch/thread_builder.rs`: the builder that gives each worker thread its core. The thread itself,
its name, and the function that it runs are left out; what the builder returns does not depend on
them.
-/

namespace Elgate.Arch

/-- Result of attempting to pin a thread to a specific core. -/
inductive PinningResult
  /-- Successfully pinned to the requested core. -/
  | success
  /-- Successfully pinned, but to a different core than requested. -/
  | successDifferentCore (core : ℕ)
  /-- Pinning is not supported on this platform. -/
  | unsupported
  /-- Pinning failed for some other reason. -/
  | failed
  deriving DecidableEq, Repr

/-- A worker thread that may be pinned to a specific CPU core. -/
structure WorkerThread where
  /-- The CPU core this thread is pinned to, if any. -/
  coreId : Option ℕ
  /-- The result of the pinning operation, which the builder assumes to succeed. -/
  pinningResult : PinningResult
  deriving DecidableEq, Repr

/-- Builder for creating worker threads. -/
structure ThreadBuilder where
  /-- Runtime mode that determines threading behavior. -/
  mode : RuntimeMode
  /-- CPU information to use for core assignment. -/
  cpuInfo : CpuInfo
  /-- Current worker index (incremented for each thread created). -/
  workerIdx : ℕ
  deriving DecidableEq, Repr

namespace ThreadBuilder

/-- `ThreadBuilder::new`. -/
def new (mode : RuntimeMode) (cpuInfo : CpuInfo) : ThreadBuilder := ⟨mode, cpuInfo, 0⟩

/-- `ThreadBuilder::build_test_stub`. -/
def buildTestStub (builder : ThreadBuilder) : WorkerThread × ThreadBuilder :=
  (⟨none, .unsupported⟩, builder)

/-- `ThreadBuilder::build`. -/
def build (builder : ThreadBuilder) : Except Panic (WorkerThread × ThreadBuilder) := do
  if builder.mode = .testStub then return builder.buildTestStub
  else
    let coreId ←
      if builder.mode.supportsPinning then
        some <$> builder.cpuInfo.getCoreForWorker builder.workerIdx
      else pure none
    return (⟨coreId, coreId.elim .unsupported fun _ => .success⟩,
      { builder with workerIdx := builder.workerIdx + 1 })

/-- The first `k` workers that the builder builds. -/
def buildWorkers (builder : ThreadBuilder) : ℕ → Except Panic (List WorkerThread × ThreadBuilder)
  | 0 => return ([], builder)
  | k + 1 => do
    let (workers, builder) ← builder.buildWorkers k
    let (worker, builder) ← builder.build
    return (workers ++ [worker], builder)

/-- A worker that is pinned to a core. -/
def pinned (core : ℕ) : WorkerThread := ⟨some core, .success⟩

/-- In pinned mode, the workers get the cores that `get_core_for_worker` gives to their numbers. -/
theorem buildWorkers_pinned {cpuInfo : CpuInfo} (hL : 0 < cpuInfo.logicalCores)
    (workerCount : ℕ) (numaAware : Bool) (k : ℕ) :
    (new (.pinnedSharded workerCount numaAware) cpuInfo).buildWorkers k =
      .ok ((List.range k).map fun j => pinned (cpuInfo.workerCore j),
        ⟨.pinnedSharded workerCount numaAware, cpuInfo, k⟩) := by
  induction k with
  | zero => rfl
  | succ k ih =>
    unfold buildWorkers
    rw [ih, List.range_succ, List.map_append]
    simp only [bind, Except.bind, build, reduceCtorEq, if_false, RuntimeMode.supportsPinning,
      if_true, getCoreForWorker_eq hL]
    rfl

end ThreadBuilder

end Elgate.Arch
