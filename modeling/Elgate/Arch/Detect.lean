import Elgate.Arch.CpuList

/-!
# Detection of the topology

The part of `src/arch/cpu_info.rs` that reads the NUMA nodes from sysfs. What the file system gives
is the argument: whether the directory of the nodes exists, the entries of the directory in the
order of `read_dir`, and for each the content of its `cpulist`. On the directory that the kernel
shows for a topology, detection finds its nodes with their cores (`detectNumaLinux_shown`).

The cores that workers get need not be among those that were found: the count of logical cores comes
from another source, and `get_core_for_worker` uses it past the end of the core lists
(`workers_onDetectedCores_iff`).
-/

namespace Elgate.Arch

open Runs Text

variable {ε : Type}

/-- An entry of the directory of the nodes. -/
structure NodeEntry (ε : Type) where
  /-- The name of the entry, as text. -/
  fileName : List Char
  /-- What reading its `cpulist` gives, when it has one. -/
  cpulist : Option (Except ε (List Char))

/-- `starts_with("node")`. -/
def startsWithNode : List Char → Bool
  | 'n' :: 'o' :: 'd' :: 'e' :: _ => true
  | _ => false

/-- `trim_start_matches("node")`, which takes the prefix away as often as it is there. -/
def trimStartNode : List Char → List Char
  | 'n' :: 'o' :: 'd' :: 'e' :: s => trimStartNode s
  | s => s

/-- The loop of `detect_numa_linux` over the entries that are left, with the nodes found so far. -/
def readNodes : List NumaNode → List (Except ε (NodeEntry ε)) → Except ε (List NumaNode)
  | numaNodes, [] => return numaNodes
  | numaNodes, entry :: entries => do
    let entry ← entry
    if startsWithNode entry.fileName then
      match parseUsize (trimStartNode entry.fileName), entry.cpulist with
      | some nodeId, some cpulist =>
        let cpulist ← cpulist
        readNodes (numaNodes ++ [⟨nodeId, parseCpuList cpulist⟩]) entries
      | _, _ => readNodes numaNodes entries
    else readNodes numaNodes entries

/-- `CpuInfo::detect_numa_linux`, when the directory of the nodes does not exist (`none`) or exists
and is read. -/
def detectNumaLinux :
    Option (Except ε (List (Except ε (NodeEntry ε)))) → Except ε (List NumaNode)
  | none => return []
  | some entries => do readNodes [] (← entries)

/-- `CpuInfo::detect_numa_nodes`. -/
def detectNumaNodes (logicalCores : ℕ)
    (sysfs : Option (Except ε (List (Except ε (NodeEntry ε))))) : List NumaNode × Bool :=
  let fallback : List NumaNode × Bool := ([⟨0, List.range logicalCores⟩], false)
  match detectNumaLinux sysfs with
  | .ok nodes => if nodes ≠ [] then (nodes, true) else fallback
  | .error _ => fallback

/-- `CpuInfo::detect`, when `num_cpus` counts `logicalCores`. -/
def CpuInfo.detect (logicalCores : ℕ)
    (sysfs : Option (Except ε (List (Except ε (NodeEntry ε))))) : CpuInfo where
  logicalCores := logicalCores
  numaNodes := (detectNumaNodes logicalCores sysfs).1
  numaAvailable := (detectNumaNodes logicalCores sysfs).2

/-! ## The directory that the kernel shows -/

/-- What the kernel shows in the directory of the nodes. -/
inductive Shown
  /-- A node and its CPUs. -/
  | node (id : ℕ) (cpus : Finset ℕ)
  /-- A file that is no node, such as `online`. -/
  | file (name : List Char)

namespace Shown

/-- The entry that `read_dir` gives. -/
def entry : Shown → NodeEntry ε
  | node id cpus => ⟨"node".toList ++ Nat.toDigits 10 id, some (.ok (renderCpuList cpus))⟩
  | file name => ⟨name, none⟩

/-- The numbers are 64-bit numbers, and a file has another name than a node. -/
def Valid : Shown → Prop
  | node id cpus => id < 2^64 ∧ ∀ cpu ∈ cpus, cpu < 2^64
  | file name => startsWithNode name = false

/-- The node that detection finds. -/
def numaNode : Shown → Option NumaNode
  | node id cpus => some ⟨id, cpus.sort (· ≤ ·)⟩
  | file _ => none

end Shown

/-- Digits do not start with the prefix, and are left as they are. -/
theorem trimStartNode_of_isDigit {s : List Char} (h : ∀ c ∈ s, c.isDigit = true) :
    trimStartNode s = s := by
  unfold trimStartNode
  split
  · exact absurd (h 'n' (by simp)) (by decide)
  · rfl

/-- One turn of the loop at a node. -/
theorem readNodes_node {entry : NodeEntry ε} {nodeId : ℕ} {cpulist : List Char}
    (hname : startsWithNode entry.fileName = true)
    (hid : parseUsize (trimStartNode entry.fileName) = some nodeId)
    (hcpulist : entry.cpulist = some (.ok cpulist)) (numaNodes : List NumaNode)
    (entries : List (Except ε (NodeEntry ε))) :
    readNodes numaNodes (.ok entry :: entries) =
      readNodes (numaNodes ++ [⟨nodeId, parseCpuList cpulist⟩]) entries := by
  simp only [readNodes, bind, Except.bind, hname, if_true, hid, hcpulist]

/-- One turn of the loop at an entry that is no node. -/
theorem readNodes_file {entry : NodeEntry ε} (hname : startsWithNode entry.fileName = false)
    (numaNodes : List NumaNode) (entries : List (Except ε (NodeEntry ε))) :
    readNodes numaNodes (.ok entry :: entries) = readNodes numaNodes entries := by
  simp only [readNodes, bind, Except.bind, hname, Bool.false_eq_true, if_false]

/-- The loop finds the nodes that are shown, in their order. -/
theorem readNodes_shown {shown : List Shown} (hvalid : ∀ entry ∈ shown, entry.Valid) :
    ∀ numaNodes, readNodes numaNodes (shown.map fun entry => .ok entry.entry) =
      (.ok (numaNodes ++ shown.filterMap Shown.numaNode) : Except ε (List NumaNode)) := by
  induction shown with
  | nil =>
    intro numaNodes
    rw [List.filterMap_nil, List.append_nil]
    rfl
  | cons entry shown ih =>
    obtain ⟨hentry, hshown⟩ := List.forall_mem_cons.mp hvalid
    intro numaNodes
    rw [List.map_cons]
    cases entry with
    | node id cpus =>
      -- The prefix goes, the digits are read as the ID, and the list as the CPUs.
      obtain ⟨hid, hcpus⟩ := hentry
      have hname : trimStartNode ("node".toList ++ Nat.toDigits 10 id) = Nat.toDigits 10 id :=
        trimStartNode_of_isDigit (numeral_toDigits id).digits
      have hparse : parseUsize (trimStartNode ("node".toList ++ Nat.toDigits 10 id)) = some id := by
        rw [hname]
        exact (numeral_toDigits id).parseUsize_eq hid
      have hcores :=
        parseCpuList_canonical hcpus (canonical_runs cpus) (listed_renderCpuList cpus)
      rw [readNodes_node rfl hparse rfl, ih hshown, hcores, List.append_assoc]
      rfl
    | file name =>
      have hname : startsWithNode ((Shown.file name).entry : NodeEntry ε).fileName = false := hentry
      rw [readNodes_file hname, ih hshown]
      rfl

/-- Detection finds the nodes that the kernel shows, with their cores in ascending order. -/
theorem detectNumaLinux_shown {shown : List Shown} (hvalid : ∀ entry ∈ shown, entry.Valid) :
    detectNumaLinux (some (.ok (shown.map fun entry => .ok entry.entry))) =
      (.ok (shown.filterMap Shown.numaNode) : Except ε (List NumaNode)) :=
  readNodes_shown hvalid []

/-- So does `detect`, and with a node there is NUMA. -/
theorem detect_shown {shown : List Shown} (hvalid : ∀ entry ∈ shown, entry.Valid)
    (hne : shown.filterMap Shown.numaNode ≠ []) (logicalCores : ℕ) :
    CpuInfo.detect logicalCores (ε := ε) (some (.ok (shown.map fun entry => .ok entry.entry))) =
      ⟨logicalCores, shown.filterMap Shown.numaNode, true⟩ := by
  unfold CpuInfo.detect detectNumaNodes
  rw [detectNumaLinux_shown hvalid]
  simp only [hne, ne_eq, not_false_eq_true, if_true]

/-! ## Workers on the cores that were found -/

/-- Some node has the core. -/
def CpuInfo.HasCore (info : CpuInfo) (core : ℕ) : Prop := ∃ node ∈ info.numaNodes, core ∈ node.cores

instance (info : CpuInfo) (core : ℕ) : Decidable (info.HasCore core) :=
  inferInstanceAs (Decidable (∃ node ∈ info.numaNodes, core ∈ node.cores))

/-- The core lists have the cores of the nodes. -/
theorem mem_nodeCores {info : CpuInfo} {core : ℕ} : core ∈ info.nodeCores ↔ info.HasCore core :=
  List.mem_flatMap

/-- With NUMA, a worker is on a core of a node when it is among the first, one for each core of the
lists, or when its number modulo the count of logical cores is such a core. -/
theorem hasCore_workerCore_iff {info : CpuInfo} (hnuma : info.numaAvailable = true)
    (workerIdx : ℕ) : info.HasCore (info.workerCore workerIdx) ↔
      workerIdx < info.nodeCores.length ∨ info.HasCore (workerIdx % info.logicalCores) := by
  unfold CpuInfo.workerCore
  rw [if_pos hnuma]
  by_cases hlt : workerIdx < info.nodeCores.length
  · rw [List.getElem?_eq_getElem hlt, Option.getD_some]
    exact iff_of_true (mem_nodeCores.mp (List.getElem_mem hlt)) (Or.inl hlt)
  · rw [List.getElem?_eq_none (Nat.le_of_not_lt hlt), Option.getD_none]
    exact (or_iff_right hlt).symm

/-- With NUMA, a worker is on a core of a node exactly when it is among the first, one for each core
of the lists, or when its number modulo the count of logical cores is such a core. So all workers
are exactly when all numbers below that count are such cores. -/
theorem workers_onDetectedCores_iff {info : CpuInfo} (hnuma : info.numaAvailable = true)
    (hL : 1 ≤ info.logicalCores) :
    (∀ workerIdx, (∃ core, info.getCoreForWorker workerIdx = .ok core ∧ info.HasCore core) ↔
      workerIdx < info.nodeCores.length ∨ info.HasCore (workerIdx % info.logicalCores)) ∧
    ((∀ workerIdx, ∃ core, info.getCoreForWorker workerIdx = .ok core ∧ info.HasCore core) ↔
      ∀ core < info.logicalCores, info.HasCore core) := by
  have hworker : ∀ workerIdx,
      (∃ core, info.getCoreForWorker workerIdx = .ok core ∧ info.HasCore core) ↔
        workerIdx < info.nodeCores.length ∨ info.HasCore (workerIdx % info.logicalCores) := by
    intro workerIdx
    rw [getCoreForWorker_eq hL, ← hasCore_workerCore_iff hnuma]
    simp
  refine ⟨hworker, ?_⟩
  -- Workers past the end of the lists go round the numbers below the count.
  rw [forall_congr' hworker]
  constructor
  · intro h core hcore
    -- A worker past the end of the lists gets the core.
    have hge : ¬ core + info.logicalCores * info.nodeCores.length < info.nodeCores.length := by
      have hle := Nat.le_mul_of_pos_left info.nodeCores.length hL
      omega
    have hmod : (core + info.logicalCores * info.nodeCores.length) % info.logicalCores = core := by
      rw [Nat.add_mul_mod_self_left, Nat.mod_eq_of_lt hcore]
    have hcases := h (core + info.logicalCores * info.nodeCores.length)
    rw [hmod] at hcases
    exact hcases.resolve_left hge
  · exact fun h workerIdx => Or.inr (h _ (Nat.mod_lt _ hL))

/-- Two nodes with the cores 0 and 2, and 1 and 3, all of them counted. -/
theorem workers_onDetectedCores_twoNodes : ∃ info : CpuInfo,
    CpuInfo.detect 4 (some (.ok [.ok ⟨"node0".toList, some (.ok "0,2\n".toList)⟩,
      .ok ⟨"node1".toList, some (.ok "1,3\n".toList)⟩]) :
        Option (Except String (List (Except String (NodeEntry String))))) = info ∧
      ∀ workerIdx, ∃ core, info.getCoreForWorker workerIdx = .ok core ∧ info.HasCore core := by
  refine ⟨⟨4, [⟨0, [0, 2]⟩, ⟨1, [1, 3]⟩], true⟩, by decide +kernel, ?_⟩
  exact (workers_onDetectedCores_iff rfl (by decide)).2.mpr (by decide)

/-- On one node with the cores 0 and 2, whose siblings 1 and 3 are offline, the fourth worker gets
core 1. -/
theorem workers_onDetectedCores_fails :
    ¬ ∀ (logicalCores : ℕ)
        (sysfs : Option (Except String (List (Except String (NodeEntry String))))),
      (CpuInfo.detect logicalCores sysfs).numaAvailable = true →
      (∃ core, (CpuInfo.detect logicalCores sysfs).HasCore core) → 1 ≤ logicalCores →
      ∀ workerIdx, ∃ core,
        (CpuInfo.detect logicalCores sysfs).getCoreForWorker workerIdx = .ok core ∧
          (CpuInfo.detect logicalCores sysfs).HasCore core := by
  intro h
  have hinfo : CpuInfo.detect 2 (some (.ok [.ok ⟨"online".toList, none⟩,
      .ok ⟨"node0".toList, some (.ok "0,2\n".toList)⟩]) :
        Option (Except String (List (Except String (NodeEntry String))))) =
      ⟨2, [⟨0, [0, 2]⟩], true⟩ := by decide +kernel
  have hcore := h 2 _ (by rw [hinfo]) ⟨0, by rw [hinfo]; decide⟩ (by decide) 3
  rw [hinfo] at hcore
  obtain ⟨core, hget, hhas⟩ := hcore
  obtain rfl : 1 = core := Except.ok.inj hget
  revert hhas
  decide

end Elgate.Arch
