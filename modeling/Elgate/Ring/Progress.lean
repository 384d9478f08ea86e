import Elgate.Foundation.Amortized
import Elgate.Ring.Create
import Elgate.Ring.Steps

/-!
# Lock freedom

`src/ring/mod.rs` calls the ring buffer lock-free: whatever the threads do, some call returns before
they have taken many steps. A thread loses an exchange of `next_producer_idx` only when another one
has claimed a slot since it loaded the index, and a call claims at most one slot in each attempt of
`wait_for_slot`. So each call has a budget of steps, out of which it pays its own and, when it
claims, those of the exchanges that it makes fail (`WritePc.budget`, `ReadPc.budget`). The sum of
the budgets is a potential that every step lowers, unless it is the last of its call or an exchange
that fails spuriously (`System.pays`), so that a run has no more steps than the calls that return
in it pay for (`lock_free`). No part of this needs the memory to be that of a created ring.
-/

namespace Elgate.Ring

open Transition

/-- A call of `read` has returned. -/
def Event.readReturn {W R : Type} : Event W R → Bool
  | .readReturned _ _ _ => true
  | _ => false

section
variable {W R : Type} (h : List (Event W R))

/-- How many calls of `write` have returned. -/
def writesReturned : ℕ := (okReturns h).length + (failures h).length

/-- How many calls of `read` have returned. -/
def readsReturned : ℕ := h.countP Event.readReturn

variable (h' : List (Event W R))

@[simp] theorem writesReturned_append :
    writesReturned (h ++ h') = writesReturned h + writesReturned h' := by
  unfold writesReturned
  rw [okReturns_append, failures_append, List.length_append, List.length_append]
  omega

@[simp] theorem readsReturned_append :
    readsReturned (h ++ h') = readsReturned h + readsReturned h' := List.countP_append

end

/-- An exchange that fails spuriously. Only an exchange can, but no more is counted. -/
def Action.spurious {W R : Type} : Action W R → Bool
  | .stepWrite _ spurious | .stepRead _ spurious => spurious
  | .callWrite _ _ | .callRead _ => false

/-- The price of an action. -/
def Action.price {W R : Type} (a : Action W R) : ℕ := if a.spurious then 1 else 0

/-! ## The budgets -/

/-- What an attempt of `wait_for_slot` costs among `n` threads: six steps, and one for each other
thread, whose exchange fails by the claim. -/
def attemptCost (n : ℕ) : ℕ := n + 5

/-- What a call of `write` costs among `n` threads: its attempts, its stores, and its start. -/
def writeCost (n : ℕ) : ℕ := (maxAttempts + 1) * attemptCost n + 19

/-- What a call of `read` costs among `n` threads. -/
def readCost (n : ℕ) : ℕ := n + 19

/-- What is left to pay of a call of `write` among `n` threads when the producer index is `idx`. An
exchange of an index that was loaded before that one fails. -/
def WritePc.budget (n idx : ℕ) : WritePc → ℕ
  | .loadProducerIdx attempts => attempts * attemptCost n + 18 + (n + 5)
  | .loadConsumerIdx attempts _ => attempts * attemptCost n + 18 + (n + 4)
  | .loadCurrent attempts => attempts * attemptCost n + 18 + (n + 3)
  | .compareExchange attempts current =>
    attempts * attemptCost n + 18 + (n + 2) + if current = idx then 0 else 1
  | .checkEmpty attempts _ => attempts * attemptCost n + 18 + 2
  | .checkComplete attempts _ => attempts * attemptCost n + 18 + 1
  | .storing _ _ rest => rest.length + 1

/-- What is left to pay of a call of `read` among `n` threads when the consumer index is `idx`. -/
def ReadPc.budget (n idx : ℕ) : ReadPc → ℕ
  | .loadProducerIdx => n + 18
  | .loadConsumerIdx _ => n + 17
  | .loadCurrent => n + 16
  | .compareExchange current => n + 15 + if current = idx then 0 else 1
  | .checkReady _ => 15
  | .loadOperation _ => 14
  | .recheckReady _ _ => 13
  | .storeReading _ _ => 12
  | .loadSize _ _ => 11
  | .copy _ _ _ => 10
  | .storeComplete _ _ _ => 9
  | .increment _ _ => 1
  | .resetting _ _ rest => rest.length + 1

/-- The attempts that a call of `write` has left, and the stores. -/
def WritePc.Bounded : WritePc → Prop
  | .loadProducerIdx attempts | .loadConsumerIdx attempts _ | .loadCurrent attempts
  | .compareExchange attempts _ | .checkEmpty attempts _ | .checkComplete attempts _ =>
    attempts ≤ maxAttempts
  | .storing _ _ rest => rest.length < 18

/-- The stores that a call of `read` has left. -/
def ReadPc.Bounded : ReadPc → Prop
  | .resetting _ _ rest => rest.length < 8
  | _ => True

/-- A thread that is in no call has a whole call to pay for. -/
def writeShare (n idx : ℕ) (pc : Option WritePc) : ℕ := pc.elim (writeCost n) (WritePc.budget n idx)

/-- A thread that is in no call has a whole call to pay for. -/
def readShare (n idx : ℕ) (pc : Option ReadPc) : ℕ := pc.elim (readCost n) (ReadPc.budget n idx)

/-- A call of `write` has eighteen stores to do. -/
theorem length_program (call : WriteCall) : call.program.length = 18 := rfl

/-- There is something to pay of every call of `write`. -/
theorem WritePc.budget_pos (n idx : ℕ) (pc : WritePc) : 0 < pc.budget n idx := by
  cases pc <;> simp only [budget] <;> omega

/-- There is something to pay of every call of `read`. -/
theorem ReadPc.budget_pos (n idx : ℕ) (pc : ReadPc) : 0 < pc.budget n idx := by
  cases pc <;> simp only [budget] <;> omega

/-- Another producer index may cost a call one exchange. -/
theorem writeShare_le (n idx idx' : ℕ) (pc : Option WritePc) :
    writeShare n idx' pc ≤ writeShare n idx pc + 1 := by
  cases pc with
  | none => exact Nat.le_succ _
  | some pc =>
    cases pc <;> simp only [writeShare, Option.elim_some, WritePc.budget] <;>
      first | omega | (split <;> split <;> omega)

/-- Another consumer index may cost a call one exchange. -/
theorem readShare_le (n idx idx' : ℕ) (pc : Option ReadPc) :
    readShare n idx' pc ≤ readShare n idx pc + 1 := by
  cases pc with
  | none => exact Nat.le_succ _
  | some pc =>
    cases pc <;> simp only [readShare, Option.elim_some, ReadPc.budget] <;>
      first | omega | (split <;> split <;> omega)

/-- No call of `write` has more to pay than a whole one. -/
theorem writeShare_le_writeCost {n idx : ℕ} {pc : Option WritePc} (h : ∀ pc' ∈ pc, pc'.Bounded) :
    writeShare n idx pc ≤ writeCost n := by
  cases pc with
  | none => exact le_refl _
  | some pc =>
    have hpc := h pc rfl
    have hmul : ∀ {attempts : ℕ}, attempts ≤ maxAttempts →
        attempts * attemptCost n ≤ maxAttempts * attemptCost n :=
      fun hle => Nat.mul_le_mul_right _ hle
    have hsucc : writeCost n = maxAttempts * attemptCost n + (n + 5) + 19 := by
      rw [writeCost, Nat.succ_mul, attemptCost]
    cases pc with
    | storing idx st rest =>
      have hrest : rest.length < 18 := hpc
      simp only [writeShare, Option.elim_some, WritePc.budget]
      omega
    | compareExchange attempts current =>
      have := hmul hpc
      simp only [writeShare, Option.elim_some, WritePc.budget]
      split <;> omega
    | loadProducerIdx attempts | loadConsumerIdx attempts | loadCurrent attempts
    | checkEmpty attempts | checkComplete attempts =>
      have := hmul hpc
      simp only [writeShare, Option.elim_some, WritePc.budget]
      omega

/-- No call of `read` has more to pay than a whole one. -/
theorem readShare_le_readCost {n idx : ℕ} {pc : Option ReadPc} (h : ∀ pc' ∈ pc, pc'.Bounded) :
    readShare n idx pc ≤ readCost n := by
  cases pc with
  | none => exact le_refl _
  | some pc =>
    have hpc := h pc rfl
    unfold readShare readCost
    rw [Option.elim_some]
    cases pc with
    | resetting idx st rest =>
      have hrest : rest.length < 8 := hpc
      simp only [ReadPc.budget]
      omega
    | compareExchange current =>
      simp only [ReadPc.budget]
      split <;> omega
    | _ =>
      simp only [ReadPc.budget]
      omega

/-! ## What a step pays -/

section
variable {W R : Type} {rb : RingBuffer} {m : RingMemory} {n : ℕ}

/-- A step of `write` at `pc` is paid for: it adds at most `raise` to what each other call has to
pay, and the call, or its return, pays for that and for the step. -/
def Effect.WritePays (n : ℕ) (m : RingMemory) (pc : WritePc) (price : ℕ)
    (e : Effect W R WritePc) : Prop :=
  ∃ raise, (∀ pc', writeShare n e.memory.header.producerIdx pc' ≤
      writeShare n m.header.producerIdx pc' + raise) ∧
    writeShare n e.memory.header.producerIdx e.pc + (n - 1) * raise + 1 ≤
      pc.budget n m.header.producerIdx + writeCost n * writesReturned e.events + price

/-- A step of `read` at `pc` is paid for. -/
def Effect.ReadPays (n : ℕ) (m : RingMemory) (pc : ReadPc) (price : ℕ)
    (e : Effect W R ReadPc) : Prop :=
  ∃ raise, (∀ pc', readShare n e.memory.header.consumerIdx pc' ≤
      readShare n m.header.consumerIdx pc' + raise) ∧
    readShare n e.memory.header.consumerIdx e.pc + (n - 1) * raise + 1 ≤
      pc.budget n m.header.consumerIdx + readCost n * readsReturned e.events + price

/-- The step that returns from a call, without a change of the producer index. -/
theorem writePays_returned {pc : WritePc} {price : ℕ} {e : Effect W R WritePc}
    (hidx : e.memory.header.producerIdx = m.header.producerIdx) (hpc : e.pc = none)
    (hreturned : writesReturned e.events = 1) : e.WritePays n m pc price := by
  refine ⟨0, fun pc' => by rw [hidx]; exact Nat.le_refl _, ?_⟩
  have hpos := pc.budget_pos n m.header.producerIdx
  rw [hpc, hreturned, writeShare, Option.elim_none]
  omega

/-- The step that goes on in a call, without a change of the producer index. -/
theorem writePays_next {pc pc' : WritePc} {price : ℕ} {e : Effect W R WritePc}
    (hidx : e.memory.header.producerIdx = m.header.producerIdx) (hpc : e.pc = some pc')
    (hbudget : pc'.budget n m.header.producerIdx + 1 ≤ pc.budget n m.header.producerIdx + price) :
    e.WritePays n m pc price := by
  refine ⟨0, fun pc' => by rw [hidx]; exact Nat.le_refl _, ?_⟩
  rw [hidx, hpc, writeShare, Option.elim_some]
  omega

/-- The end of an attempt. -/
theorem nextAttempt_pays (w : W) (call : WriteCall) (attempts : ℕ) {pc : WritePc} {price : ℕ}
    (hbudget : attempts * attemptCost n + 18 < pc.budget n m.header.producerIdx) :
    (nextAttempt w call m attempts : Effect W R WritePc).WritePays n m pc price := by
  cases attempts with
  | zero => exact writePays_returned rfl rfl rfl
  | succ attempts =>
    refine writePays_next rfl rfl ?_
    have hsucc : (attempts + 1) * attemptCost n = attempts * attemptCost n + (n + 5) := by
      rw [Nat.succ_mul, attemptCost]
    show attempts * attemptCost n + 18 + (n + 5) + 1 ≤ _
    omega

/-- The check that takes the slot. -/
theorem program_pays (call : WriteCall) (idx : ℕ) {pc : WritePc} {price : ℕ}
    (hbudget : 18 < pc.budget n m.header.producerIdx) :
    (⟨m, WritePc.ofStores idx call.program, []⟩ : Effect W R WritePc).WritePays n m pc price :=
  writePays_next rfl rfl (by
    show 17 + 1 + 1 ≤ _
    omega)

variable (rb) in
/-- The start of a call of `write` is paid for by the call, also when it is the end of it. -/
theorem writeCall_pays (w : W) (call : WriteCall) (n : ℕ) :
    readsReturned (writeCall rb w call m : Effect W R WritePc).events = 0 ∧
      (writeCall rb w call m : Effect W R WritePc).memory = m ∧
      writeShare n m.header.producerIdx (writeCall rb w call m : Effect W R WritePc).pc + 1 ≤
        writeCost n +
          writeCost n * writesReturned (writeCall rb w call m : Effect W R WritePc).events := by
  have hcost : writeCost n = maxAttempts * attemptCost n + 18 + (n + 5) + 1 := by
    rw [writeCost, Nat.succ_mul, attemptCost]
    omega
  have hreturned : writeCost n + 1 ≤ writeCost n + writeCost n * 1 := by omega
  unfold writeCall
  split
  · split
    · exact ⟨rfl, rfl, hreturned⟩
    · refine ⟨rfl, rfl, ?_⟩
      show maxAttempts * attemptCost n + 18 + (n + 5) + 1 ≤ _
      omega
  · exact ⟨rfl, rfl, hreturned⟩

variable (rb) in
/-- Every step of `write` is paid for. -/
theorem writeStep_pays (w : W) (call : WriteCall) {spurious : Bool} (pc : WritePc) (hn : 0 < n)
    {price : ℕ} (hprice : spurious = true → 1 ≤ price) :
    (writeStep rb w call m spurious pc : Effect W R WritePc).WritePays n m pc price := by
  cases pc with
  | loadProducerIdx attempts =>
    refine writePays_next rfl rfl ?_
    simp only [WritePc.budget]
    omega
  | loadConsumerIdx attempts producerIdx =>
    simp only [writeStep]
    split
    · split
      · refine writePays_next rfl rfl ?_
        simp only [WritePc.budget]
        omega
      · -- The next attempt is paid for in the budget of this one.
        refine nextAttempt_pays w call attempts ?_
        simp only [WritePc.budget]
        omega
    · exact writePays_returned rfl rfl rfl
  | loadCurrent attempts =>
    refine writePays_next rfl rfl ?_
    simp only [WritePc.budget, if_true]
    omega
  | compareExchange attempts current =>
    simp only [writeStep]
    split
    · split
      · -- The claim makes the exchanges of the other threads fail.
        rename_i hcurrent
        split
        · refine ⟨1, fun pc' => writeShare_le n _ _ pc', ?_⟩
          simp only [writeShare, Option.elim_some, WritePc.budget]
          omega
        · refine ⟨1, fun pc' => writeShare_le n _ _ pc', ?_⟩
          have hreturned : writesReturned [Event.claimed w call current,
              (.writeReturned w call (.error ‹_›) : Event W R)] = 1 := rfl
          rw [hreturned, writeShare, Option.elim_none, WritePc.budget]
          omega
      · -- The exchange fails. The index that it loads is the present one.
        rename_i hfails
        refine writePays_next rfl rfl ?_
        simp only [WritePc.budget, if_true]
        by_cases hcurrent : current = m.header.producerIdx
        · have hpaid : 1 ≤ price := hprice (by simpa [hcurrent] using hfails)
          rw [if_pos hcurrent]
          omega
        · rw [if_neg hcurrent]
          omega
    · exact writePays_returned rfl rfl rfl
  | checkEmpty attempts idx =>
    simp only [writeStep]
    split
    · refine program_pays call idx ?_
      simp only [WritePc.budget]
      omega
    · refine writePays_next rfl rfl ?_
      simp only [WritePc.budget]
      omega
  | checkComplete attempts idx =>
    simp only [writeStep]
    split
    · refine program_pays call idx ?_
      simp only [WritePc.budget]
      omega
    · refine nextAttempt_pays w call attempts ?_
      simp only [WritePc.budget]
      omega
  | storing idx st rest =>
    cases rest with
    | nil =>
      refine writePays_returned rfl rfl ?_
      rcases st with status | _ | _ | _ | _ | _
      · cases status <;> rfl
      all_goals rfl
    | cons st' rest =>
      refine writePays_next rfl rfl ?_
      simp only [WritePc.budget, List.length_cons]
      omega

/-- The step that returns from a call, without a change of the consumer index. -/
theorem readPays_returned {pc : ReadPc} {price : ℕ} {e : Effect W R ReadPc}
    (hidx : e.memory.header.consumerIdx = m.header.consumerIdx) (hpc : e.pc = none)
    (hreturned : readsReturned e.events = 1) : e.ReadPays n m pc price := by
  refine ⟨0, fun pc' => by rw [hidx]; exact Nat.le_refl _, ?_⟩
  have hpos := pc.budget_pos n m.header.consumerIdx
  rw [hpc, hreturned, readShare, Option.elim_none]
  omega

/-- The step that goes on in a call, without a change of the consumer index. -/
theorem readPays_next {pc pc' : ReadPc} {price : ℕ} {e : Effect W R ReadPc}
    (hidx : e.memory.header.consumerIdx = m.header.consumerIdx) (hpc : e.pc = some pc')
    (hbudget : pc'.budget n m.header.consumerIdx + 1 ≤ pc.budget n m.header.consumerIdx + price) :
    e.ReadPays n m pc price := by
  refine ⟨0, fun pc' => by rw [hidx]; exact Nat.le_refl _, ?_⟩
  rw [hidx, hpc, readShare, Option.elim_some]
  omega

variable (rb) in
/-- Every step of `read` is paid for. -/
theorem readStep_pays (r : R) {spurious : Bool} (pc : ReadPc) (hn : 0 < n) {price : ℕ}
    (hprice : spurious = true → 1 ≤ price) :
    (readStep rb r m spurious pc : Effect W R ReadPc).ReadPays n m pc price := by
  cases pc with
  | loadProducerIdx =>
    refine readPays_next rfl rfl ?_
    simp only [ReadPc.budget]
    omega
  | loadConsumerIdx producerIdx =>
    simp only [readStep]
    split
    · exact readPays_returned rfl rfl rfl
    · refine readPays_next rfl rfl ?_
      simp only [ReadPc.budget]
      omega
  | loadCurrent =>
    refine readPays_next rfl rfl ?_
    simp only [ReadPc.budget, if_true]
    omega
  | compareExchange current =>
    simp only [readStep]
    split
    · split
      · split
        · refine ⟨1, fun pc' => readShare_le n _ _ pc', ?_⟩
          simp only [readShare, Option.elim_some, ReadPc.budget]
          omega
        · refine ⟨1, fun pc' => readShare_le n _ _ pc', ?_⟩
          have hreturned : readsReturned [Event.passed r current,
              (.readReturned r none (.error ‹_›) : Event W R)] = 1 := rfl
          rw [hreturned, readShare, Option.elim_none, ReadPc.budget]
          omega
      · rename_i hfails
        refine readPays_next rfl rfl ?_
        simp only [ReadPc.budget, if_true]
        by_cases hcurrent : current = m.header.consumerIdx
        · have hpaid : 1 ≤ price := hprice (by simpa [hcurrent] using hfails)
          rw [if_pos hcurrent]
          omega
        · rw [if_neg hcurrent]
          omega
    · exact readPays_returned rfl rfl rfl
  | checkReady idx | recheckReady idx =>
    -- A slot that is not ready is reset, by eight stores.
    simp only [readStep]
    split
    · exact readPays_next rfl rfl (by simp only [ReadPc.budget]; omega)
    · exact readPays_next rfl rfl (by show 7 + 1 + 1 ≤ _; simp only [ReadPc.budget]; omega)
  | loadOperation idx | storeReading idx | copy idx =>
    exact readPays_next rfl rfl (by simp only [ReadPc.budget]; omega)
  | loadSize idx kind =>
    simp only [readStep]
    split
    · exact readPays_next rfl rfl (by simp only [ReadPc.budget]; omega)
    · exact readPays_next rfl rfl (by simp only [ReadPc.budget]; omega)
  | storeComplete idx kind data =>
    cases data with
    | none => exact readPays_next rfl rfl (by show 7 + 1 + 1 ≤ _; simp only [ReadPc.budget]; omega)
    | some data => exact readPays_next rfl rfl (by simp only [ReadPc.budget]; omega)
  | increment idx msg => exact readPays_returned rfl rfl rfl
  | resetting idx st rest =>
    cases rest with
    | nil => exact readPays_returned rfl rfl rfl
    | cons st' rest =>
      refine readPays_next rfl rfl ?_
      simp only [ReadPc.budget, List.length_cons]
      omega

variable (rb) in
/-- A step of `write` is no return of a `read`, and leaves the consumer index. -/
theorem writeStep_frame (w : W) (call : WriteCall) (spurious : Bool) (pc : WritePc) :
    readsReturned (writeStep rb w call m spurious pc : Effect W R WritePc).events = 0 ∧
      (writeStep rb w call m spurious pc : Effect W R WritePc).memory.header.consumerIdx =
        m.header.consumerIdx := by
  rcases writeStep_cases (R := R) rb w call m spurious pc with ⟨idx, st, rest, rfl⟩ |
    ⟨idx, -, he⟩ | ⟨-, hpriv⟩
  · refine ⟨List.countP_eq_zero.mpr fun ev hev => ?_, rfl⟩
    rcases storeEvents_mem hev with rfl | rfl <;> exact Bool.false_ne_true
  · rw [he]
    exact ⟨rfl, rfl⟩
  · refine ⟨List.countP_eq_zero.mpr fun ev hev => ?_, hpriv.consumerIdx⟩
    rcases hpriv.events ev hev with ⟨w, call, rfl⟩ | ⟨w, call, idx, rfl⟩ | ⟨w, call, e, rfl⟩ <;>
      exact Bool.false_ne_true

variable (rb) in
/-- A step of `read` is no return of a `write`, and leaves the producer index. -/
theorem readStep_frame (r : R) (spurious : Bool) (pc : ReadPc) :
    writesReturned (readStep rb r m spurious pc : Effect W R ReadPc).events = 0 ∧
      (readStep rb r m spurious pc : Effect W R ReadPc).memory.header.producerIdx =
        m.header.producerIdx := by
  obtain ⟨hof, -, -⟩ := readStep_events (W := W) rb r m spurious pc
  refine ⟨by rw [writesReturned, hof.okReturns, hof.failures]; rfl, ?_⟩
  cases pc with
  | loadConsumerIdx | checkReady | recheckReady | loadSize =>
    simp only [readStep]
    split <;> rfl
  | compareExchange current =>
    simp only [readStep]
    repeat' split
    all_goals rfl
  | storeComplete idx kind data => cases data <;> rfl
  | _ => rfl

/-! ## What stays bounded -/

/-- The stores that are left are fewer. -/
theorem WritePc.ofStores_bounded {idx : ℕ} {stores : List Store} (h : stores.length ≤ 18) :
    ∀ pc ∈ WritePc.ofStores idx stores, pc.Bounded := by
  intro pc hpc
  obtain ⟨st, rest, rfl, rfl⟩ := WritePc.ofStores_eq_some.mp hpc
  exact h

/-- The stores that are left are fewer. -/
theorem ReadPc.ofStores_bounded {idx : ℕ} {stores : List Store} (h : stores.length ≤ 8) :
    ∀ pc ∈ ReadPc.ofStores idx stores, pc.Bounded := by
  intro pc hpc
  obtain ⟨st, rest, rfl, rfl⟩ := ReadPc.ofStores_eq_some.mp hpc
  exact h

/-- The next attempt has fewer attempts after it. -/
theorem nextAttempt_bounded (w : W) (call : WriteCall) {attempts : ℕ} (h : attempts ≤ maxAttempts) :
    ∀ pc ∈ (nextAttempt w call m attempts : Effect W R WritePc).pc, pc.Bounded := by
  cases attempts with
  | zero => simp [nextAttempt]
  | succ attempts =>
    rintro pc ⟨⟩
    exact Nat.le_of_succ_le h

/-- The start of a call of `write`. -/
theorem writeCall_bounded (w : W) (call : WriteCall) :
    ∀ pc ∈ (writeCall rb w call m : Effect W R WritePc).pc, pc.Bounded := by
  unfold writeCall
  split
  · split
    · simp
    · rintro pc ⟨⟩
      exact Nat.le_refl _
  · simp

/-- A step of `write` leaves no more attempts and stores. -/
theorem writeStep_bounded (w : W) (call : WriteCall) (spurious : Bool) {pc : WritePc}
    (h : pc.Bounded) :
    ∀ pc' ∈ (writeStep rb w call m spurious pc : Effect W R WritePc).pc, pc'.Bounded := by
  -- A step that goes on in the same attempt.
  have hgoes : ∀ {pc' : WritePc}, pc'.Bounded → ∀ pc'' ∈ some pc', pc''.Bounded := by
    rintro pc' hpc' pc'' ⟨⟩
    exact hpc'
  cases pc with
  | loadProducerIdx | loadCurrent => exact hgoes h
  | loadConsumerIdx attempts producerIdx =>
    simp only [writeStep]
    split
    · split
      · exact hgoes h
      · exact nextAttempt_bounded w call h
    · simp
  | compareExchange attempts current =>
    simp only [writeStep]
    split
    · split
      · split
        · exact hgoes h
        · simp
      · exact hgoes h
    · simp
  | checkEmpty attempts idx =>
    simp only [writeStep]
    split
    · exact WritePc.ofStores_bounded (length_program call).le
    · exact hgoes h
  | checkComplete attempts idx =>
    simp only [writeStep]
    split
    · exact WritePc.ofStores_bounded (length_program call).le
    · exact nextAttempt_bounded w call h
  | storing idx st rest => exact WritePc.ofStores_bounded (le_of_lt h)

/-- A step of `read` leaves no more stores. -/
theorem readStep_bounded (r : R) (spurious : Bool) {pc : ReadPc} (h : pc.Bounded) :
    ∀ pc' ∈ (readStep rb r m spurious pc : Effect W R ReadPc).pc, pc'.Bounded := by
  have hgoes : ∀ {pc' : ReadPc}, pc'.Bounded → ∀ pc'' ∈ some pc', pc''.Bounded := by
    rintro pc' hpc' pc'' ⟨⟩
    exact hpc'
  have hreset : ∀ idx, ∀ pc' ∈ ReadPc.ofStores idx Slot.resetStores, pc'.Bounded :=
    fun idx => ReadPc.ofStores_bounded (Nat.le_refl 8)
  cases pc with
  | loadProducerIdx | loadCurrent | loadOperation | storeReading | copy => exact hgoes trivial
  | loadConsumerIdx producerIdx =>
    simp only [readStep]
    split
    · simp
    · exact hgoes trivial
  | compareExchange current =>
    simp only [readStep]
    split
    · split
      · split
        · exact hgoes trivial
        · simp
      · exact hgoes trivial
    · simp
  | checkReady idx | recheckReady idx =>
    simp only [readStep]
    split
    · exact hgoes trivial
    · exact hreset idx
  | loadSize idx kind =>
    simp only [readStep]
    split <;> exact hgoes trivial
  | storeComplete idx kind data =>
    cases data with
    | none => exact hreset idx
    | some data => exact hgoes trivial
  | increment idx msg => simp [readStep]
  | resetting idx st rest => exact ReadPc.ofStores_bounded (le_of_lt h)

end

/-! ## Runs -/

namespace System

section
variable {W R : Type} {s : System W R}

/-- The attempts and the stores that are left of every call. -/
structure Bounded (s : System W R) : Prop where
  /-- Those of the calls of `write`. -/
  writer : ∀ w call pc, s.writer w = some (call, pc) → pc.Bounded
  /-- Those of the calls of `read`. -/
  reader : ∀ r pc, s.reader r = some pc → pc.Bounded

/-- A step of a call of `write` that stays bounded. -/
theorem Bounded.afterWrite [DecidableEq W] (h : s.Bounded) {w : W} {call : WriteCall}
    {e : Effect W R WritePc} (he : ∀ pc ∈ e.pc, pc.Bounded) : (s.afterWrite w call e).Bounded where
  writer w' call' pc' hw' := by
    rcases afterWrite_writer.mp hw' with ⟨-, -, hpc⟩ | ⟨-, hold⟩
    · exact he pc' hpc
    · exact h.writer w' call' pc' hold
  reader := h.reader

/-- A step of a call of `read` that stays bounded. -/
theorem Bounded.afterRead [DecidableEq R] (h : s.Bounded) {r : R} {e : Effect W R ReadPc}
    (he : ∀ pc ∈ e.pc, pc.Bounded) : (s.afterRead r e).Bounded where
  writer := h.writer
  reader r' pc' hr' := by
    rcases afterRead_reader.mp hr' with ⟨-, hpc⟩ | ⟨-, hold⟩
    · exact he pc' hpc
    · exact h.reader r' pc' hold

/-- Every step keeps the bounds. -/
theorem Bounded.step [DecidableEq W] [DecidableEq R] (h : s.Bounded) {rb : RingBuffer}
    {a : Action W R} {s' : System W R} (hstep : s.step rb a = some s') : s'.Bounded := by
  rcases step_cases hstep with ⟨w, call, -, -, rfl⟩ | ⟨w, spurious, call, pc, -, hw, rfl⟩ |
    ⟨r, -, -, rfl⟩ | ⟨r, spurious, pc, -, hr, rfl⟩
  · exact h.afterWrite (writeCall_bounded w call)
  · exact h.afterWrite (writeStep_bounded w call spurious (h.writer w call pc hw))
  · refine h.afterRead ?_
    rintro pc ⟨⟩
    trivial
  · exact h.afterRead (readStep_bounded r spurious (h.reader r pc hr))

/-- The bounds hold in every run from a state without calls. -/
theorem Bounded.of_reaches [DecidableEq W] [DecidableEq R] {rb : RingBuffer} {m : RingMemory}
    (hrun : Reaches (System.step rb) Always (System.start m) s) : s.Bounded := by
  have hstart : (System.start m : System W R).Bounded :=
    ⟨by rintro w call pc ⟨⟩, by rintro r pc ⟨⟩⟩
  exact hrun.invariant hstart fun _ _ _ ht _ hstep => ht.step hstep

end

section
variable {W R : Type} [Fintype W] [Fintype R]

/-- What a thread that calls `write` has left to pay. -/
def writeOwed (s : System W R) (w : W) : ℕ :=
  writeShare (Fintype.card W) s.memory.header.producerIdx ((s.writer w).map Prod.snd)

/-- What a thread that calls `read` has left to pay. -/
def readOwed (s : System W R) (r : R) : ℕ :=
  readShare (Fintype.card R) s.memory.header.consumerIdx (s.reader r)

/-- What is left to pay of the calls, with a whole one for each thread that is in none. -/
def potential (s : System W R) : ℕ := ∑ w, s.writeOwed w + ∑ r, s.readOwed r

/-- What the calls that have returned pay for. -/
def earned (s : System W R) : ℕ :=
  writeCost (Fintype.card W) * writesReturned s.history +
    readCost (Fintype.card R) * readsReturned s.history

variable {s : System W R}

/-- What a step of a call of `write` leaves to pay, when it pays for itself. -/
theorem afterWrite_pays [DecidableEq W] (w : W) (call : WriteCall) (e : Effect W R WritePc)
    (price raise : ℕ)
    (hreads : readsReturned e.events = 0)
    (hconsumer : e.memory.header.consumerIdx = s.memory.header.consumerIdx)
    (hothers : ∀ pc', writeShare (Fintype.card W) e.memory.header.producerIdx pc' ≤
      writeShare (Fintype.card W) s.memory.header.producerIdx pc' + raise)
    (hown : writeShare (Fintype.card W) e.memory.header.producerIdx e.pc +
        (Fintype.card W - 1) * raise + 1 ≤
      s.writeOwed w + (writeCost (Fintype.card W) * writesReturned e.events + price)) :
    (s.afterWrite w call e).potential + s.earned + 1 ≤
      s.potential + (s.afterWrite w call e).earned + price := by
  -- The other writers may owe more, as their exchanges fail now.
  have hsame : ∀ w', w' ≠ w → (s.afterWrite w call e).writeOwed w' ≤ s.writeOwed w' + raise := by
    intro w' hne
    unfold writeOwed
    rw [show (s.afterWrite w call e).writer w' = s.writer w' from Function.update_of_ne hne _ _]
    exact hothers _
  have hpc : ((s.afterWrite w call e).writer w).map Prod.snd = e.pc := by
    rw [show (s.afterWrite w call e).writer w = e.pc.map fun pc => (call, pc) from
      Function.update_self _ _ _, Option.map_map]
    exact Option.map_id'
  have hshares := Amortized.sum_le_of_share s.writeOwed (s.afterWrite w call e).writeOwed w raise
    hsame (by
      rw [show (s.afterWrite w call e).writeOwed w =
        writeShare (Fintype.card W) e.memory.header.producerIdx e.pc by rw [writeOwed, hpc]; rfl]
      exact hown)
  have hreaders : (s.afterWrite w call e).readOwed = s.readOwed := by
    funext r
    unfold readOwed
    rw [show (s.afterWrite w call e).memory = e.memory from rfl, hconsumer]
    rfl
  -- The calls that return have earned their price.
  have hearned : (s.afterWrite w call e).earned =
      s.earned + writeCost (Fintype.card W) * writesReturned e.events := by
    unfold earned
    rw [show (s.afterWrite w call e).history = s.history ++ e.events from rfl,
      writesReturned_append, readsReturned_append, hreads, Nat.mul_add, Nat.mul_add]
    omega
  rw [hearned, potential, potential, hreaders]
  omega

/-- What a step of a call of `read` leaves to pay, when it pays for itself. -/
theorem afterRead_pays [DecidableEq R] (r : R) (e : Effect W R ReadPc) (price raise : ℕ)
    (hwrites : writesReturned e.events = 0)
    (hproducer : e.memory.header.producerIdx = s.memory.header.producerIdx)
    (hothers : ∀ pc', readShare (Fintype.card R) e.memory.header.consumerIdx pc' ≤
      readShare (Fintype.card R) s.memory.header.consumerIdx pc' + raise)
    (hown : readShare (Fintype.card R) e.memory.header.consumerIdx e.pc +
        (Fintype.card R - 1) * raise + 1 ≤
      s.readOwed r + (readCost (Fintype.card R) * readsReturned e.events + price)) :
    (s.afterRead r e).potential + s.earned + 1 ≤
      s.potential + (s.afterRead r e).earned + price := by
  -- The other readers may owe more, as their exchanges fail now.
  have hsame : ∀ r', r' ≠ r → (s.afterRead r e).readOwed r' ≤ s.readOwed r' + raise := by
    intro r' hne
    unfold readOwed
    rw [show (s.afterRead r e).reader r' = s.reader r' from Function.update_of_ne hne _ _]
    exact hothers _
  have hshares := Amortized.sum_le_of_share s.readOwed (s.afterRead r e).readOwed r raise hsame (by
    have hpc : (s.afterRead r e).reader r = e.pc := Function.update_self _ _ _
    rw [show (s.afterRead r e).readOwed r =
      readShare (Fintype.card R) e.memory.header.consumerIdx e.pc by rw [readOwed, hpc]; rfl]
    exact hown)
  have hwriters : (s.afterRead r e).writeOwed = s.writeOwed := by
    funext w
    unfold writeOwed
    rw [show (s.afterRead r e).memory = e.memory from rfl, hproducer]
    rfl
  have hearned : (s.afterRead r e).earned =
      s.earned + readCost (Fintype.card R) * readsReturned e.events := by
    unfold earned
    rw [show (s.afterRead r e).history = s.history ++ e.events from rfl,
      writesReturned_append, readsReturned_append, hwrites, Nat.mul_add, Nat.mul_add]
    omega
  rw [hearned, potential, potential, hwriters]
  omega

/-- Every step is paid for. -/
theorem pays [DecidableEq W] [DecidableEq R] {rb : RingBuffer} {a : Action W R} {s' : System W R}
    (hstep : s.step rb a = some s') :
    s'.potential + s.earned + 1 ≤ s.potential + s'.earned + a.price := by
  rcases step_cases hstep with ⟨w, call, rfl, hw, rfl⟩ | ⟨w, spurious, call, pc, rfl, hw, rfl⟩ |
    ⟨r, rfl, hr, rfl⟩ | ⟨r, spurious, pc, rfl, hr, rfl⟩
  · -- A thread in no call pays for the start of one out of the call.
    obtain ⟨hreads, hmemory, hown⟩ := writeCall_pays (R := R) (m := s.memory) rb w call
      (Fintype.card W)
    refine afterWrite_pays w call _ _ 0 hreads (by rw [hmemory]) (fun pc' => by rw [hmemory]; rfl)
      ?_
    rw [writeOwed, hw, hmemory]
    show _ ≤ writeCost (Fintype.card W) + _
    omega
  · have hcard : 0 < Fintype.card W := Fintype.card_pos_iff.mpr ⟨w⟩
    obtain ⟨hreads, hconsumer⟩ := writeStep_frame (R := R) (m := s.memory) rb w call
      spurious pc
    have hprice : spurious = true → 1 ≤ (Action.stepWrite w spurious : Action W R).price := by
      rintro rfl
      exact Nat.le_refl 1
    obtain ⟨raise, hothers, hown⟩ := writeStep_pays (R := R) (m := s.memory) rb w call pc
      hcard hprice
    refine afterWrite_pays w call _ _ raise hreads hconsumer hothers ?_
    rw [writeOwed, hw]
    show _ ≤ pc.budget _ _ + _
    omega
  · refine afterRead_pays r _ _ 0 rfl rfl (fun pc' => Nat.le_refl _) ?_
    rw [readOwed, hr]
    show Fintype.card R + 18 + (Fintype.card R - 1) * 0 + 1 ≤ Fintype.card R + 19 + _
    omega
  · have hcard : 0 < Fintype.card R := Fintype.card_pos_iff.mpr ⟨r⟩
    obtain ⟨hwrites, hproducer⟩ := readStep_frame (W := W) (m := s.memory) rb r spurious pc
    have hprice : spurious = true → 1 ≤ (Action.stepRead r spurious : Action W R).price := by
      rintro rfl
      exact Nat.le_refl 1
    obtain ⟨raise, hothers, hown⟩ := readStep_pays (W := W) (m := s.memory) rb r pc
      hcard hprice
    refine afterRead_pays r _ _ raise hwrites hproducer hothers ?_
    rw [readOwed, hr]
    show _ ≤ pc.budget _ _ + _
    omega

/-- No more is left to pay than a whole call for each thread. -/
theorem potential_le (h : s.Bounded) :
    s.potential ≤ writeCost (Fintype.card W) * Fintype.card W +
      readCost (Fintype.card R) * Fintype.card R := by
  refine Nat.add_le_add (Amortized.sum_le_card_mul fun w => ?_)
    (Amortized.sum_le_card_mul fun r => ?_)
  · refine writeShare_le_writeCost fun pc hpc => ?_
    obtain ⟨⟨call, pc'⟩, hw, rfl⟩ := Option.map_eq_some_iff.mp hpc
    exact h.writer w call pc' hw
  · exact readShare_le_readCost fun pc hpc => h.reader r pc hpc

end

end System

/-- In any part of any run on any memory, the threads take no more steps than the calls that return
in it pay for, one more call for each thread, and the exchanges that fail spuriously. -/
theorem lock_free {W R : Type} [Fintype W] [Fintype R] [DecidableEq W] [DecidableEq R]
    {rb : RingBuffer} {m : RingMemory} {s s' : System W R} {as : List (Action W R)}
    (hreached : Reaches (System.step rb) Always (System.start m) s)
    (hrun : runWhere (System.step rb) Always s as = some s') :
    as.length + writeCost (Fintype.card W) * writesReturned s.history +
        readCost (Fintype.card R) * readsReturned s.history ≤
      writeCost (Fintype.card W) * (writesReturned s'.history + Fintype.card W) +
        readCost (Fintype.card R) * (readsReturned s'.history + Fintype.card R) +
        as.countP Action.spurious := by
  have hbound := System.potential_le (System.Bounded.of_reaches hreached)
  have hpaid := length_le_of_pays (I := fun _ => True) System.potential System.earned Action.price
    (fun _ _ _ _ _ hstep => System.pays hstep) (fun _ _ _ _ _ _ => trivial) trivial hrun
  have hprice : (as.map Action.price).sum = as.countP Action.spurious :=
    Amortized.sum_map_ite Action.spurious as
  rw [hprice] at hpaid
  simp only [System.earned] at hpaid
  rw [Nat.mul_add, Nat.mul_add]
  omega

/-- Two threads that call `write` on a ring of two slots and claim at the same time: the exchange of
the second one fails, and it exchanges again. -/
theorem lock_free_contended : ∃ m rb s s', Created ⟨448, 128⟩ m rb ∧
    Reaches (System.step rb) Always (System.start m : System (Fin 2) Unit) s ∧
    runWhere (System.step rb) Always s
      [.stepWrite 0 false, .stepWrite 1 false, .stepWrite 1 false] = some s' ∧
    (claims s'.history).map (fun claim => claim.2.2) = [0, 1] ∧
    3 ≤ writeCost 2 * 2 + readCost 1 := by
  obtain ⟨m, rb, s, s', hc, hreached, hrun, hclaims, hwrites, hreads, hwrites', hreads'⟩ :
      ∃ m rb s s', Created ⟨448, 128⟩ m rb ∧
      Reaches (System.step rb) Always (System.start m : System (Fin 2) Unit) s ∧
      runWhere (System.step rb) Always s
        [.stepWrite 0 false, .stepWrite 1 false, .stepWrite 1 false] = some s' ∧
      (claims s'.history).map (fun claim => claim.2.2) = [0, 1] ∧
      writesReturned s.history = 0 ∧ readsReturned s.history = 0 ∧
      writesReturned s'.history = 0 ∧ readsReturned s'.history = 0 := by
    refine ⟨_, _, _, _, ⟨0, Or.inl rfl⟩, Reaches.get_runWhere
      (.callWrite 0 ⟨.custom, [1], Uuid.nil, 0⟩ :: List.replicate 3 (.stepWrite 0 false) ++
        .callWrite 1 ⟨.custom, [2], Uuid.nil, 0⟩ :: List.replicate 3 (.stepWrite 1 false))
      (by decide +kernel), (Option.some_get (by decide +kernel)).symm, ?_⟩
    decide +kernel
  have hbound := lock_free hreached hrun
  rw [hwrites, hreads, hwrites', hreads'] at hbound
  exact ⟨m, rb, s, s', hc, hreached, hrun, hclaims, by simpa [Action.spurious] using hbound⟩

end Elgate.Ring
