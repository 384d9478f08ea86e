import Elgate.Arch.Detect
import Elgate.Ring.Create

/-!
# Binding a ring to a NUMA node

`create_numa_aware` of `src/ring/buffer.rs` makes at most one memory-policy call before it
initializes the file, and none when it falls back to `create`. `memoryPolicy` is that part of the
function (`createNumaAware_eq`), so that the call is visible also where the initialization fails.

The requested node is compared with the number of nodes, not with their IDs, and then used as the
number of a bit in a mask of 64 bits. `createNumaAware_binds_iff` says when the three uses agree.
-/

namespace Elgate.Ring

/-- `create_numa_aware` up to the memory-policy call: the call, or none if it falls back. -/
def memoryPolicy (cpuInfo : Arch.CpuInfo) (options : RingBufferOptions) (numaNode : ℕ) :
    Except Fault (Option Mbind) := do
  if ¬ cpuInfo.numaAvailable ∨ numaNode ≥ cpuInfo.numaNodes.length then return none
  else if numaNode ≥ 64 then throw (.panic .shiftLeftOverflow)
  else
    return some { len := options.size, mode := 2, mask := 2^numaNode, maxNode := 64, flags := 1 }

/-- After a memory-policy call the file is initialized with the node in its header, and without one
the function is `create`. -/
theorem createNumaAware_eq (cpuInfo : Arch.CpuInfo) (options : RingBufferOptions)
    (numaNode now : ℕ) :
    createNumaAware cpuInfo options numaNode now = (do
      match ← memoryPolicy cpuInfo options numaNode with
      | none => return (← create options now, none)
      | some mbind =>
        return (← initFile options now fun header => { header with numaNode := numaNode % 2^32 },
          some mbind)) := by
  unfold createNumaAware memoryPolicy
  split
  · rfl
  · split
    · rfl
    · rfl

/-- Some node that was detected has the ID. -/
def HasNode (cpuInfo : Arch.CpuInfo) (id : ℕ) : Prop := ∃ node ∈ cpuInfo.numaNodes, node.id = id

instance (cpuInfo : Arch.CpuInfo) (id : ℕ) : Decidable (HasNode cpuInfo id) :=
  inferInstanceAs (Decidable (∃ node ∈ cpuInfo.numaNodes, node.id = id))

/-- The mask has the bit of the node and no other. -/
def Mbind.Selects (mbind : Mbind) (numaNode : ℕ) : Prop :=
  mbind.mask < 2^64 ∧ ∀ bit, mbind.mask.testBit bit = true ↔ bit = numaNode

/-- `create_numa_aware` binds the memory to the requested node, and to nodes that exist only. -/
structure BindsNode (cpuInfo : Arch.CpuInfo) (options : RingBufferOptions) (numaNode : ℕ) :
    Prop where
  /-- The shift of the mask does not overflow. -/
  shift : ∀ now, createNumaAware cpuInfo options numaNode now ≠ .error (.panic .shiftLeftOverflow)
  /-- The call is made when there is NUMA and the node exists, also where the initialization fails
  after it. -/
  called : (∃ mbind, memoryPolicy cpuInfo options numaNode = .ok (some mbind)) ↔
    cpuInfo.numaAvailable = true ∧ HasNode cpuInfo numaNode
  /-- Its mask is that of the node. -/
  mask : ∀ mbind, memoryPolicy cpuInfo options numaNode = .ok (some mbind) →
    mbind.Selects numaNode
  /-- A ring is returned with the call when there is NUMA and the node exists. The call selects the
  node, which the header names. -/
  returned : ∀ now m rb mbind, createNumaAware cpuInfo options numaNode now = .ok ((m, rb), mbind) →
    (mbind ≠ none ↔ cpuInfo.numaAvailable = true ∧ HasNode cpuInfo numaNode) ∧
      ∀ call ∈ mbind, call.Selects numaNode ∧ m.header.numaNode = numaNode
  /-- Without the call the function is `create`. -/
  fallback : ¬ (cpuInfo.numaAvailable = true ∧ HasNode cpuInfo numaNode) → ∀ now,
    createNumaAware cpuInfo options numaNode now =
      (create options now).map fun created => (created, none)

section
variable {cpuInfo : Arch.CpuInfo} {options : RingBufferOptions} {numaNode : ℕ}

/-- The function falls back. -/
theorem memoryPolicy_none
    (h : ¬ cpuInfo.numaAvailable = true ∨ cpuInfo.numaNodes.length ≤ numaNode) :
    memoryPolicy cpuInfo options numaNode = .ok none := if_pos h

/-- The shift overflows. -/
theorem memoryPolicy_overflow (hnuma : cpuInfo.numaAvailable = true)
    (hlt : numaNode < cpuInfo.numaNodes.length) (h64 : 64 ≤ numaNode) :
    memoryPolicy cpuInfo options numaNode = .error (.panic .shiftLeftOverflow) := by
  have h : ¬ (¬ cpuInfo.numaAvailable = true ∨ numaNode ≥ cpuInfo.numaNodes.length) := by
    simp [hnuma, hlt]
  unfold memoryPolicy
  rw [if_neg h, if_pos h64]
  rfl

/-- The call is made. -/
theorem memoryPolicy_some (hnuma : cpuInfo.numaAvailable = true)
    (hlt : numaNode < cpuInfo.numaNodes.length) (h64 : numaNode < 64) :
    memoryPolicy cpuInfo options numaNode =
      .ok (some ⟨options.size, 2, 2^numaNode, 64, 1⟩) := by
  have h : ¬ (¬ cpuInfo.numaAvailable = true ∨ numaNode ≥ cpuInfo.numaNodes.length) := by
    simp [hnuma, hlt]
  unfold memoryPolicy
  rw [if_neg h, if_neg (Nat.not_le_of_lt h64)]
  rfl

/-- Without a call the function is `create`. -/
theorem createNumaAware_of_none (h : memoryPolicy cpuInfo options numaNode = .ok none) (now : ℕ) :
    createNumaAware cpuInfo options numaNode now =
      (create options now).map fun created => (created, none) := by
  rw [createNumaAware_eq, h]
  cases create options now <;> rfl

/-- With a call the file is initialized with the node in its header. -/
theorem createNumaAware_of_some {mbind : Mbind}
    (h : memoryPolicy cpuInfo options numaNode = .ok (some mbind)) (now : ℕ) :
    createNumaAware cpuInfo options numaNode now =
      (initFile options now fun header => { header with numaNode := numaNode % 2^32 }).map
        fun created => (created, some mbind) := by
  rw [createNumaAware_eq, h, ok_bind]
  dsimp only
  cases initFile options now fun header => { header with numaNode := numaNode % 2^32 } <;> rfl

/-- A value that was changed is that of a step that returns one. -/
theorem map_eq_ok {α β : Type} {x : Except Fault α} {f : α → β} {b : β} (h : x.map f = .ok b) :
    ∃ a, x = .ok a ∧ f a = b := by
  cases x with
  | error e => cases h
  | ok a => exact ⟨a, rfl, Except.ok.inj h⟩

/-- Two steps of which neither fails with an error do not fail with it. -/
theorem bind_ne_error {α β : Type} {x : Except Fault α} {f : α → Except Fault β} {e : Fault}
    (hx : x ≠ .error e) (hf : ∀ a, f a ≠ .error e) : (x >>= f) ≠ .error e := by
  cases x with
  | error e' => exact fun h => hx (congrArg Except.error (Except.error.inj h))
  | ok a => exact hf a

/-- Nor does a step whose value is changed. -/
theorem map_ne_error {α β : Type} {x : Except Fault α} {f : α → β} {e : Fault}
    (hx : x ≠ .error e) : x.map f ≠ .error e := by
  cases x with
  | error e' => exact fun h => hx (congrArg Except.error (Except.error.inj h))
  | ok a => exact fun h => nomatch h

/-- Nor does a loop of such steps. -/
theorem foldlM_ne_error {α σ : Type} {f : σ → α → Except Fault σ} {e : Fault}
    (hf : ∀ s a, f s a ≠ .error e) (l : List α) (s : σ) : l.foldlM f s ≠ .error e := by
  induction l generalizing s with
  | nil => exact fun h => throw_ne_ok h.symm
  | cons a l ih =>
    rw [List.foldlM_cons]
    exact bind_ne_error (hf s a) ih

/-- An operation on `usize` values that is checked fails with its own panic only. -/
theorem checked_ne_error {p : Prop} [Decidable p] {a : ℕ} {panic panic' : Panic}
    (hne : panic ≠ panic') :
    (if p then .ok a else .error (.panic panic) : Except Fault ℕ) ≠ .error (.panic panic') := by
  split
  · exact fun h => nomatch h
  · exact fun h => hne (Fault.panic.inj (Except.error.inj h))

/-- The initialization of a file shifts nothing. -/
theorem initFile_ne_shift (options : RingBufferOptions) (now : ℕ)
    (extend : RingHeader → RingHeader) :
    initFile options now extend ≠ .error (.panic .shiftLeftOverflow) := by
  have hslot : ∀ (header : RingHeader) (idx slotSize : ℕ),
      getSlot header idx slotSize ≠ .error (.panic .shiftLeftOverflow) := by
    intro header idx slotSize
    unfold getSlot
    split
    · refine bind_ne_error (checked_ne_error nofun) fun start => ?_
      refine bind_ne_error (checked_ne_error nofun) fun offset => ?_
      exact bind_ne_error (checked_ne_error nofun) fun dataSize h => nomatch h
    · exact fun h => nomatch h
  -- The header is built, and then the slots are reset in a loop.
  refine bind_ne_error ?_ fun header => bind_ne_error ?_ fun m h => nomatch h
  · refine bind_ne_error (checked_ne_error nofun) fun room => ?_
    split
    · exact fun h => nomatch h
    · exact fun h => nomatch h
  · refine foldlM_ne_error (fun m i => ?_) _ _
    exact bind_ne_error (hslot _ _ _) fun slot h => nomatch h

/-- The memory of a file that is initialized has the header that it is given. -/
theorem initFile_header {now : ℕ} {extend : RingHeader → RingHeader} {m : RingMemory}
    {rb : RingBuffer} (h : initFile options now extend = .ok (m, rb)) :
    ∃ header, m.header = (extend header).registerProducer := by
  obtain ⟨header, -, h⟩ := bind_eq_ok h
  obtain ⟨m', hreset, h⟩ := bind_eq_ok h
  obtain ⟨rfl, -⟩ := Prod.mk.inj (pure_eq_ok h)
  rw [resetSlots_ok hreset fun i => Slot.reset_zeroed _]
  exact ⟨header, rfl⟩

/-- Falling back is right when the request cannot be met. -/
theorem bindsNode_iff_of_none (h : memoryPolicy cpuInfo options numaNode = .ok none) :
    BindsNode cpuInfo options numaNode ↔
      ¬ (cpuInfo.numaAvailable = true ∧ HasNode cpuInfo numaNode) := by
  have hno : ∀ mbind, memoryPolicy cpuInfo options numaNode ≠ .ok (some mbind) := by
    intro mbind hmbind
    rw [h] at hmbind
    cases hmbind
  constructor
  · intro hbinds hnode
    obtain ⟨mbind, hmbind⟩ := hbinds.called.mpr hnode
    exact hno mbind hmbind
  · intro hnode
    refine ⟨fun now => ?_, iff_of_false ?_ hnode, ?_, ?_, fun _ => createNumaAware_of_none h⟩
    · rw [createNumaAware_of_none h]
      exact map_ne_error (initFile_ne_shift options now id)
    · rintro ⟨mbind, hmbind⟩
      exact hno mbind hmbind
    · exact fun mbind hmbind => absurd hmbind (hno mbind)
    · intro now m rb mbind hcreated
      rw [createNumaAware_of_none h] at hcreated
      obtain ⟨created, -, hcreated⟩ := map_eq_ok hcreated
      obtain ⟨-, rfl⟩ := Prod.mk.inj hcreated
      exact ⟨iff_of_false (fun hne => hne rfl) hnode, by rintro call ⟨⟩⟩

/-- The call is right when the node exists. -/
theorem bindsNode_iff_of_some (h64 : numaNode < 64)
    (h : memoryPolicy cpuInfo options numaNode = .ok (some ⟨options.size, 2, 2^numaNode, 64, 1⟩)) :
    BindsNode cpuInfo options numaNode ↔
      cpuInfo.numaAvailable = true ∧ HasNode cpuInfo numaNode := by
  constructor
  · exact fun hbinds => hbinds.called.mp ⟨_, h⟩
  · intro hnode
    have hselects : Mbind.Selects ⟨options.size, 2, 2^numaNode, 64, 1⟩ numaNode := by
      refine ⟨Nat.pow_lt_pow_right (by decide) h64, fun bit => ?_⟩
      rw [Nat.testBit_two_pow, decide_eq_true_eq]
      exact eq_comm
    refine ⟨fun now => ?_, iff_of_true ⟨_, h⟩ hnode, ?_, ?_, fun hno => absurd hnode hno⟩
    · rw [createNumaAware_of_some h]
      exact map_ne_error (initFile_ne_shift options now _)
    · intro mbind hmbind
      rw [h] at hmbind
      obtain rfl := Option.some.inj (Except.ok.inj hmbind)
      exact hselects
    · intro now m rb mbind hcreated
      rw [createNumaAware_of_some h] at hcreated
      obtain ⟨created, hinit, hcreated⟩ := map_eq_ok hcreated
      obtain ⟨rfl, rfl⟩ := Prod.mk.inj hcreated
      refine ⟨iff_of_true (Option.some_ne_none _) hnode, ?_⟩
      rintro call ⟨⟩
      obtain ⟨header, hheader⟩ := initFile_header hinit
      refine ⟨hselects, ?_⟩
      rw [hheader]
      exact Nat.mod_eq_of_lt (h64.trans (by decide))

end

/-- `create_numa_aware` binds the memory to the requested node exactly when there is no NUMA, or the
request is below the number of nodes just when a node has its ID, and then below 64 too. -/
theorem createNumaAware_binds_iff (cpuInfo : Arch.CpuInfo) (options : RingBufferOptions)
    (numaNode : ℕ) :
    BindsNode cpuInfo options numaNode ↔ cpuInfo.numaAvailable = false ∨
      ((numaNode < cpuInfo.numaNodes.length ↔ HasNode cpuInfo numaNode) ∧
        (numaNode < cpuInfo.numaNodes.length → numaNode < 64)) := by
  by_cases hnuma : cpuInfo.numaAvailable = true
  · rcases Nat.lt_or_ge numaNode cpuInfo.numaNodes.length with hlt | hge
    · rcases Nat.lt_or_ge numaNode 64 with h64 | h64
      · rw [bindsNode_iff_of_some h64 (memoryPolicy_some hnuma hlt h64)]
        simp [hnuma, hlt, h64]
      · have hoverflow : ∀ now, createNumaAware cpuInfo options numaNode now =
            .error (.panic .shiftLeftOverflow) := by
          intro now
          rw [createNumaAware_eq, memoryPolicy_overflow hnuma hlt h64]
          rfl
        refine iff_of_false (fun h => h.shift 0 (hoverflow 0)) ?_
        rintro (hno | ⟨-, h⟩)
        · rw [hnuma] at hno
          cases hno
        · exact absurd (h hlt) (Nat.not_lt_of_le h64)
    · -- The request is past the number of nodes, whatever their IDs are.
      rw [bindsNode_iff_of_none (memoryPolicy_none (Or.inr hge))]
      simp [hnuma, Nat.not_lt_of_le hge]
  · rw [bindsNode_iff_of_none (memoryPolicy_none (Or.inl hnuma))]
    simp [hnuma]

/-- On a machine with the nodes 0 and 2, node 2 is refused. -/
theorem createNumaAware_binds_fails :
    ¬ ∀ (logicalCores : ℕ)
        (sysfs : Option (Except String (List (Except String (Arch.NodeEntry String)))))
        (options : RingBufferOptions) (numaNode : ℕ),
      ((Arch.CpuInfo.detect logicalCores sysfs).numaNodes.map Arch.NumaNode.id).Nodup →
      BindsNode (Arch.CpuInfo.detect logicalCores sysfs) options numaNode := by
  intro h
  have hinfo : Arch.CpuInfo.detect 2 (some (.ok [.ok ⟨"node0".toList, some (.ok "0\n".toList)⟩,
      .ok ⟨"node2".toList, some (.ok "1\n".toList)⟩]) :
        Option (Except String (List (Except String (Arch.NodeEntry String))))) =
      ⟨2, [⟨0, [0]⟩, ⟨2, [1]⟩], true⟩ := by decide +kernel
  have hbinds := h 2 _ ⟨1024, 128⟩ 2 (by rw [hinfo]; decide)
  rw [hinfo] at hbinds
  obtain ⟨mbind, hmbind⟩ := hbinds.called.mpr (by decide)
  cases hmbind

end Elgate.Ring
