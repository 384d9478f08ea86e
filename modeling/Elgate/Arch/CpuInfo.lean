import Mathlib.Data.List.Basic

/-!
# CPU topology

`src/arch/cpu_info.rs`: the data that detection hands to the rest of the program, and the core that
it gives to each worker. The count of physical cores is only printed and is left out. `usize` values
are natural numbers; a subtraction below zero, a remainder by zero, and an index past the end of a
vector panic.
-/

namespace Elgate.Arch

/-- The panics that the functions on the topology can raise. -/
inductive Panic
  | subtractOverflow
  | remainderByZero
  | indexOutOfBounds (len index : ℕ)
  deriving DecidableEq, Repr

/-- The text of a panic. -/
def Panic.message : Panic → String
  | subtractOverflow => "attempt to subtract with overflow"
  | remainderByZero => "attempt to calculate the remainder with a divisor of zero"
  | indexOutOfBounds len index =>
    s!"index out of bounds: the len is {len} but the index is {index}"

/-- Subtraction of `usize` values. -/
def subUsize (a b : ℕ) : Except Panic ℕ := if b ≤ a then .ok (a - b) else .error .subtractOverflow

/-- Remainder of `usize` values. -/
def remUsize (a b : ℕ) : Except Panic ℕ := if b = 0 then .error .remainderByZero else .ok (a % b)

/-- Indexing of a vector. -/
def index (l : List ℕ) (i : ℕ) : Except Panic ℕ :=
  match l[i]? with
  | some a => .ok a
  | none => .error (.indexOutOfBounds l.length i)

/-- Information about a NUMA node. -/
structure NumaNode where
  /-- NUMA node ID. -/
  id : ℕ
  /-- Logical CPU cores in this NUMA node. -/
  cores : List ℕ
  deriving DecidableEq, Repr

/-- `NumaNode::core_count`. -/
def NumaNode.coreCount (node : NumaNode) : ℕ := node.cores.length

/-- CPU topology information. -/
structure CpuInfo where
  /-- Total number of logical CPU cores. -/
  logicalCores : ℕ
  /-- NUMA nodes detected on the system, in the order of the directory that lists them. -/
  numaNodes : List NumaNode
  /-- Is NUMA topology valid and usable? -/
  numaAvailable : Bool
  deriving DecidableEq, Repr

/-- The loop of `get_core_for_worker` over the nodes that are left: the core of the worker, if it
belongs to one of them. `totalCores` is the running total. -/
def coreInNodes (workerIdx : ℕ) : ℕ → List NumaNode → Except Panic (Option ℕ)
  | _, [] => return none
  | totalCores, node :: nodes => do
    let totalCores := totalCores + node.coreCount
    if workerIdx < totalCores then
      let localIdx ← subUsize workerIdx (← subUsize totalCores node.coreCount)
      return some (← index node.cores (← remUsize localIdx node.coreCount))
    else coreInNodes workerIdx totalCores nodes

/-- `CpuInfo::get_core_for_worker`. -/
def CpuInfo.getCoreForWorker (info : CpuInfo) (workerIdx : ℕ) : Except Panic ℕ := do
  if ¬ info.numaAvailable ∨ info.numaNodes = [] then
    remUsize workerIdx info.logicalCores
  else
    match ← coreInNodes workerIdx 0 info.numaNodes with
    | some core => return core
    | none => remUsize workerIdx info.logicalCores

/-- The core lists of the nodes, one after the other. -/
def CpuInfo.nodeCores (info : CpuInfo) : List ℕ := info.numaNodes.flatMap NumaNode.cores

/-! ## The core of a worker -/

/-- The loop finds the core that is as far into the lists as the worker is past the running total.
No step of it panics. -/
theorem coreInNodes_eq (workerIdx : ℕ) (nodes : List NumaNode) :
    ∀ totalCores, totalCores ≤ workerIdx → coreInNodes workerIdx totalCores nodes =
      .ok (nodes.flatMap NumaNode.cores)[workerIdx - totalCores]? := by
  induction nodes with
  | nil => exact fun totalCores _ => rfl
  | cons node nodes ih =>
    intro totalCores hle
    unfold coreInNodes
    by_cases hlt : workerIdx < totalCores + node.coreCount
    · -- The worker belongs to this node, which then has a core.
      have hlen : workerIdx - totalCores < node.cores.length := by
        unfold NumaNode.coreCount at hlt
        omega
      have hpos : node.coreCount ≠ 0 := by
        unfold NumaNode.coreCount
        omega
      have hlocal : (workerIdx - totalCores) % node.coreCount = workerIdx - totalCores :=
        Nat.mod_eq_of_lt hlen
      simp only [hlt, if_true, subUsize, remUsize, index, Nat.le_add_left, Nat.add_sub_cancel, hle,
        hpos, if_false, hlocal, List.flatMap_cons, List.getElem?_append_left hlen,
        List.getElem?_eq_getElem hlen, bind, Except.bind, pure, Except.pure]
    · have hge : node.cores.length ≤ workerIdx - totalCores := by
        unfold NumaNode.coreCount at hlt
        omega
      have hrest : workerIdx - (totalCores + node.coreCount) =
          workerIdx - totalCores - node.cores.length := Nat.sub_add_eq _ _ _
      simp only [hlt, if_false]
      rw [ih _ (Nat.not_lt.mp hlt), List.flatMap_cons, List.getElem?_append_right hge, hrest]

/-- The core of a worker: with NUMA the worker's place in the core lists, and past their end or
without NUMA the number of the worker modulo the number of cores. -/
def CpuInfo.workerCore (info : CpuInfo) (workerIdx : ℕ) : ℕ :=
  if info.numaAvailable then
    info.nodeCores[workerIdx]?.getD (workerIdx % info.logicalCores)
  else workerIdx % info.logicalCores

/-- With at least one core, `get_core_for_worker` does not panic. -/
theorem getCoreForWorker_eq {info : CpuInfo} (hL : 0 < info.logicalCores) (workerIdx : ℕ) :
    info.getCoreForWorker workerIdx = .ok (info.workerCore workerIdx) := by
  have hrem : remUsize workerIdx info.logicalCores = .ok (workerIdx % info.logicalCores) :=
    if_neg (Nat.ne_of_gt hL)
  unfold CpuInfo.getCoreForWorker CpuInfo.workerCore CpuInfo.nodeCores
  by_cases hnuma : info.numaAvailable = true
  · by_cases hnodes : info.numaNodes = []
    · simp [hnuma, hnodes, hrem]
    · rw [coreInNodes_eq workerIdx info.numaNodes 0 (Nat.zero_le _)]
      simp only [hnuma, hnodes, not_true_eq_false, or_self, if_false, if_true, Nat.sub_zero]
      cases (info.numaNodes.flatMap NumaNode.cores)[workerIdx]? with
      | none => exact hrem
      | some core => rfl
  · simp [hnuma, hrem]

end Elgate.Arch
