import Elgate.Arch.CpuInfo

/-!
# Runtime modes

`src/arch/runtime_mode.rs`: the operational modes, and the mode that is selected for a system. The
descriptions of the modes are only printed and are left out.
-/

namespace Elgate.Arch

/-- The runtime modes that Elgate can operate in. -/
inductive RuntimeMode
  /-- Single-threaded mode. -/
  | singleThread
  /-- Multi-threaded mode with threads pinned to specific cores. -/
  | pinnedSharded (workerCount : ℕ) (numaAware : Bool)
  /-- Single-threaded mode regardless of available resources. -/
  | forcedSingle
  /-- A test stub that doesn't create real threads. -/
  | testStub
  deriving DecidableEq, Repr

namespace RuntimeMode

/-- `RuntimeMode::select_for_system`. -/
def selectForSystem (cpuInfo : CpuInfo) : RuntimeMode :=
  let logicalCores := cpuInfo.logicalCores
  if logicalCores ≤ 1 then singleThread
  else
    let workerCount := if logicalCores ≤ 4 then logicalCores else logicalCores - 1
    pinnedSharded workerCount cpuInfo.numaAvailable

/-- `RuntimeMode::worker_count`. -/
def workerCount : RuntimeMode → ℕ
  | singleThread | forcedSingle | testStub => 1
  | pinnedSharded workerCount _ => workerCount

/-- `RuntimeMode::supports_pinning`. -/
def supportsPinning : RuntimeMode → Bool
  | pinnedSharded _ _ => true
  | _ => false

/-- The selected mode has no more workers than there are cores. -/
theorem workerCount_selectForSystem_le (cpuInfo : CpuInfo) (hL : 0 < cpuInfo.logicalCores) :
    (selectForSystem cpuInfo).workerCount ≤ cpuInfo.logicalCores := by
  unfold selectForSystem
  by_cases hone : cpuInfo.logicalCores ≤ 1
  · simp only [hone, if_true]
    exact hL
  · simp only [hone, if_false]
    show (if cpuInfo.logicalCores ≤ 4 then _ else _) ≤ _
    split <;> omega

end RuntimeMode

end Elgate.Arch
