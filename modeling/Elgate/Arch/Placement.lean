import Elgate.Arch.ThreadBuilder
import Elgate.Foundation.Laps

/-!
# Where workers are placed

On a topology whose nodes have the cores `0, ..., L - 1` between them, `get_core_for_worker` goes
round these cores: in the order of the nodes on the first lap, and in ascending order afterwards. So
the workers of pinned mode share the cores evenly, and those of the selected mode are on different
cores (`workers_balanced`).
-/

namespace Elgate.Arch

open Laps

/-- The nodes have the cores `0, ..., L - 1` between them, each in one place, or there is no NUMA.
-/
def CpuInfo.CoresNumbered (info : CpuInfo) : Prop :=
  info.numaAvailable = true → info.nodeCores.Perm (List.range info.logicalCores)

instance (info : CpuInfo) : Decidable info.CoresNumbered :=
  inferInstanceAs (Decidable (_ → _))

/-- The workers on these cores share the cores `0, ..., L - 1` evenly. -/
structure Balanced (L : ℕ) (cores : List ℕ) : Prop where
  /-- Every core has its share of the workers, rounded down or up. -/
  count : ∀ core < L,
    cores.count core = cores.length / L ∨ cores.count core = (cores.length + L - 1) / L
  /-- No other core has a worker. -/
  lt : ∀ core ∈ cores, core < L

section
variable {info : CpuInfo}

/-- The workers of the first lap are on the cores of the nodes, in their order. -/
theorem workerCore_of_lt (hcores : info.CoresNumbered) (hnuma : info.numaAvailable = true) {j : ℕ}
    (hj : j < info.logicalCores) : info.nodeCores[j]? = some (info.workerCore j) := by
  have hlen : info.nodeCores.length = info.logicalCores := by
    rw [(hcores hnuma).length_eq, List.length_range]
  unfold CpuInfo.workerCore
  rw [if_pos hnuma, List.getElem?_eq_getElem (by omega), Option.getD_some]

/-- Past the first lap, workers are on the cores in ascending order. -/
theorem workerCore_of_le (hcores : info.CoresNumbered) {j : ℕ} (hj : info.logicalCores ≤ j) :
    info.workerCore j = j % info.logicalCores := by
  unfold CpuInfo.workerCore
  split
  · rename_i hnuma
    have hlen : info.nodeCores.length = info.logicalCores := by
      rw [(hcores hnuma).length_eq, List.length_range]
    rw [List.getElem?_eq_none (by omega), Option.getD_none]
  · rfl

/-- The first lap with NUMA is in the order of the nodes. -/
theorem placed_workerCore_first (hcores : info.CoresNumbered)
    (hnuma : info.numaAvailable = true) :
    placed info.workerCore info.logicalCores = info.nodeCores := by
  have hlen := (hcores hnuma).length_eq
  rw [List.length_range] at hlen
  apply List.ext_getElem?
  intro j
  unfold placed
  rw [List.getElem?_map]
  by_cases hj : j < info.logicalCores
  · rw [List.getElem?_range hj, workerCore_of_lt hcores hnuma hj]
    rfl
  · rw [List.getElem?_eq_none (by rw [List.length_range]; omega),
      List.getElem?_eq_none (by omega)]
    rfl

/-- In any other lap the cores are in ascending order. -/
theorem workerCore_lap (hcores : info.CoresNumbered) {lap i : ℕ}
    (hlap : ¬ (lap = 0 ∧ info.numaAvailable = true)) (hi : i < info.logicalCores) :
    info.workerCore (lap * info.logicalCores + i) = i := by
  have hmod : (lap * info.logicalCores + i) % info.logicalCores = i := by
    rw [Nat.mul_add_mod', Nat.mod_eq_of_lt hi]
  rcases Nat.eq_zero_or_pos lap with rfl | hpos
  · have hnuma : ¬ info.numaAvailable = true := fun hnuma => hlap ⟨rfl, hnuma⟩
    unfold CpuInfo.workerCore
    rw [if_neg hnuma, hmod]
  · have hle : info.logicalCores ≤ lap * info.logicalCores := Nat.le_mul_of_pos_left _ hpos
    rw [workerCore_of_le hcores (by omega), hmod]

/-- Every lap of workers takes each core once. -/
theorem workerCore_goesRound (hcores : info.CoresNumbered) :
    GoesRound info.workerCore (List.range info.logicalCores) := by
  intro lap
  rw [List.length_range]
  by_cases hfirst : lap = 0 ∧ info.numaAvailable = true
  · obtain ⟨rfl, hnuma⟩ := hfirst
    have hplaced := placed_workerCore_first hcores hnuma
    simp only [Nat.zero_mul, Nat.zero_add]
    rw [hplaced]
    exact hcores hnuma
  · have hplaced : placed (fun i => info.workerCore (lap * info.logicalCores + i))
        info.logicalCores = List.range info.logicalCores := by
      unfold placed
      conv_rhs => rw [← List.map_id (List.range info.logicalCores)]
      exact List.map_congr_left fun i hi => workerCore_lap hcores hfirst (List.mem_range.mp hi)
    rw [hplaced]

/-- The first workers share the cores evenly. -/
theorem placed_balanced (hL : 0 < info.logicalCores) (hcores : info.CoresNumbered) (k : ℕ) :
    Balanced info.logicalCores (placed info.workerCore k) := by
  have hround := workerCore_goesRound hcores
  have hlen : (placed info.workerCore k).length = k := by simp [placed]
  constructor
  · intro core hcore
    have hcount := hround.count_eq List.nodup_range (List.mem_range.mpr hcore) k
    rw [hlen]
    rwa [List.length_range] at hcount
  · intro core hcore
    obtain ⟨j, -, rfl⟩ := List.mem_map.mp hcore
    have hne : List.range info.logicalCores ≠ [] := by
      rw [ne_eq, List.range_eq_nil]
      omega
    exact List.mem_range.mp (hround.mem hne j)

end

/-- In pinned mode the first `k` workers share the cores evenly, for every `k`. With NUMA the first
`L` are on the cores of the nodes in their order. When the selected mode is pinned, all of its
workers are on different cores. -/
theorem workers_balanced {info : CpuInfo} (hL : 1 ≤ info.logicalCores)
    (hcores : info.CoresNumbered) :
    (∀ workerCount numaAware k, ∃ (cores : List ℕ) (builder : ThreadBuilder),
      (ThreadBuilder.new (.pinnedSharded workerCount numaAware) info).buildWorkers k =
        .ok (cores.map ThreadBuilder.pinned, builder) ∧
      cores.length = k ∧ Balanced info.logicalCores cores ∧
      (info.numaAvailable = true → ∀ j < info.logicalCores, j < k →
        cores[j]? = info.nodeCores[j]?)) ∧
    ∀ workerCount numaAware,
      RuntimeMode.selectForSystem info = .pinnedSharded workerCount numaAware →
      ∃ (cores : List ℕ) (builder : ThreadBuilder),
        (ThreadBuilder.new (RuntimeMode.selectForSystem info) info).buildWorkers
          (RuntimeMode.selectForSystem info).workerCount =
          .ok (cores.map ThreadBuilder.pinned, builder) ∧
        cores.length = workerCount ∧ cores.Nodup := by
  have hbuild : ∀ workerCount numaAware k, ∃ builder,
      (ThreadBuilder.new (.pinnedSharded workerCount numaAware) info).buildWorkers k =
        .ok ((placed info.workerCore k).map ThreadBuilder.pinned, builder) := by
    intro workerCount numaAware k
    refine ⟨⟨.pinnedSharded workerCount numaAware, info, k⟩, ?_⟩
    rw [ThreadBuilder.buildWorkers_pinned hL, placed, List.map_map]
    rfl
  constructor
  · intro workerCount numaAware k
    obtain ⟨builder, hworkers⟩ := hbuild workerCount numaAware k
    refine ⟨_, builder, hworkers, by simp [placed], placed_balanced hL hcores k, ?_⟩
    intro hnuma j hj hjk
    rw [workerCore_of_lt hcores hnuma hj]
    simp [placed, hjk]
  · intro workerCount numaAware hmode
    have hle := RuntimeMode.workerCount_selectForSystem_le info hL
    obtain ⟨builder, hworkers⟩ := hbuild workerCount numaAware
      (RuntimeMode.selectForSystem info).workerCount
    rw [← hmode] at hworkers
    have hcount : (RuntimeMode.selectForSystem info).workerCount = workerCount := by
      rw [hmode]
      rfl
    refine ⟨_, builder, hworkers, by simp [placed, hcount],
      (workerCore_goesRound hcores).nodup List.nodup_range ?_⟩
    rwa [List.length_range]

/-- Six cores on three nodes, interleaved, and one of them without a core. -/
theorem workers_balanced_threeNodes :
    ∃ info : CpuInfo, info = ⟨6, [⟨1, [1, 3, 5]⟩, ⟨2, []⟩, ⟨0, [0, 2, 4]⟩], true⟩ ∧
      (∃ (cores : List ℕ) (builder : ThreadBuilder),
        (ThreadBuilder.new (.pinnedSharded 5 true) info).buildWorkers 8 =
          .ok (cores.map ThreadBuilder.pinned, builder) ∧ Balanced 6 cores) ∧
      ∃ (cores : List ℕ) (builder : ThreadBuilder),
        (ThreadBuilder.new (RuntimeMode.selectForSystem info) info).buildWorkers
          (RuntimeMode.selectForSystem info).workerCount =
          .ok (cores.map ThreadBuilder.pinned, builder) ∧ cores.length = 5 ∧ cores.Nodup := by
  refine ⟨_, rfl, ?_⟩
  have hcores : CpuInfo.CoresNumbered ⟨6, [⟨1, [1, 3, 5]⟩, ⟨2, []⟩, ⟨0, [0, 2, 4]⟩], true⟩ := by
    decide
  obtain ⟨hall, hselected⟩ := workers_balanced (by decide) hcores
  constructor
  · obtain ⟨cores, builder, hworkers, -, hbalanced, -⟩ := hall 5 true 8
    exact ⟨cores, builder, hworkers, hbalanced⟩
  · exact hselected 5 true rfl

end Elgate.Arch
