import Elgate.Ring.Session

/-!
# At capacity

What a failed `write` leaves behind, and when the two tests for a full and for an empty ring are
right. `write` decides by the status of the slots and gives up after eleven of them, with the
producer index moved past each; `read` decides by the indices, which are modulo the slot count.

* A failed `write` leaves the memory as it was unless it has tried eleven slots of a ring whose slot
  count does not divide eleven (`write_atomic_iff`).
* A full ring reads as empty until failed writes have moved its producer index (`read_full_iff`).
* A ring with room is taken to be full when its producer index has been moved so far into the unread
  messages that eleven attempts do not reach their end (`write_full_iff`).
-/

namespace Elgate.Ring

open Transition

/-! ## What a failed `write` changes -/

section
variable {rb : RingBuffer} {m : RingMemory}

/-- Moving the producer index by `k` slots gives the same memory when that is a number of whole
laps. -/
theorem setProducerIdx_ahead_eq_iff (h : m.header.producerIdx < m.header.slotCount) (k : ℕ) :
    m.setProducerIdx (m.ahead k) = m ↔ m.header.slotCount ∣ k := by
  constructor
  · intro heq
    have hidx : m.ahead k = m.header.producerIdx :=
      congrArg (fun m => m.header.producerIdx) heq
    have hmod : m.header.producerIdx + k ≡ m.header.producerIdx + 0 [MOD m.header.slotCount] :=
      hidx.trans (Nat.mod_eq_of_lt h).symm
    exact (Nat.modEq_zero_iff_dvd).mp (Nat.ModEq.add_left_cancel' _ hmod)
  · rintro ⟨n, rfl⟩
    have hidx : m.ahead (m.header.slotCount * n) = m.header.producerIdx := by
      rw [RingMemory.ahead, Nat.add_mul_mod_self_left, Nat.mod_eq_of_lt h]
    rw [hidx]
    rfl

/-- A `write` that returns `Err` leaves the memory as it was exactly when its payload is too large,
or it finds a slot, or eleven slots are a number of whole laps. -/
theorem write_atomic_iff (h : Valid rb m) (call : WriteCall) :
    ((∃ e, ((write rb call).exec m).1 = .error (.err e)) → ((write rb call).exec m).2 = m) ↔
      rb.payloadSize < call.data.length ∨
      (∃ k ≤ maxAttempts, (m.slots (m.ahead k)).available = true) ∨
      m.header.slotCount ∣ maxAttempts + 1 := by
  rcases Nat.lt_or_ge rb.payloadSize call.data.length with hlarge | hl
  · rw [write_tooLarge h.slotSize_ge hlarge]
    simp [hlarge]
  rcases firstAvailable_or m maxAttempts with ⟨k, hk, hfirst⟩ | hnone
  · rw [write_found h hl hk hfirst]
    have hav : ∃ k ≤ maxAttempts, (m.slots (m.ahead k)).available = true :=
      ⟨k, hk, hfirst.available⟩
    simp [hav]
  · rw [write_full h hl hnone]
    have hno : ¬ ∃ k ≤ maxAttempts, (m.slots (m.ahead k)).available = true := by
      rintro ⟨k, hk, hav⟩
      rw [hnone k hk] at hav
      cases hav
    rw [setProducerIdx_ahead_eq_iff h.producerIdx_lt]
    simp [hno, Nat.not_lt.mpr hl]

end

/-- A ring of two slots that two writes have filled refuses a third one, which leaves the producer
index at the other slot. -/
theorem write_atomic_fails : ∃ m rb s call e, Created ⟨448, 128⟩ m rb ∧
    Reaches Session.step Always (Session.start m rb) s ∧ Valid rb s.memory ∧
    ((write rb call).exec s.memory).1 = .error (.err e) ∧
    ((write rb call).exec s.memory).2 ≠ s.memory := by
  obtain ⟨m, rb, s, call, e, hc, hrun, hfits, hp, hcons, hw, hne⟩ :
      ∃ m rb s call e, Created ⟨448, 128⟩ m rb ∧
        Reaches Session.step Always (Session.start m rb) s ∧
        SlotsFit rb.slotSize s.memory.header.slotCount ∧
        s.memory.header.producerIdx < s.memory.header.slotCount ∧
        s.memory.header.consumerIdx < s.memory.header.slotCount ∧
        ((write rb call).exec s.memory).1 = .error (.err e) ∧
        ((write rb call).exec s.memory).2.header ≠ s.memory.header := by
    refine ⟨_, _, _, ⟨.custom, [3], Uuid.nil, 0⟩, .ringBufferFull 10, ⟨0, Or.inl rfl⟩,
      Reaches.get_runWhere [.write 0 ⟨.custom, [1], Uuid.nil, 0⟩,
        .write 0 ⟨.custom, [2], Uuid.nil, 0⟩] (by decide +kernel), ?_, ?_, ?_, ?_, ?_⟩
    all_goals decide +kernel
  exact ⟨m, rb, s, call, e, hc, hrun, ⟨hfits, hp, hcons⟩, hw,
    fun heq => hne (congrArg RingMemory.header heq)⟩

/-- The same ring refuses a payload that is too large and stays as it is. -/
theorem write_atomic_tooLarge : ∃ m rb s call, Created ⟨448, 128⟩ m rb ∧
    Reaches Session.step Always (Session.start m rb) s ∧ Valid rb s.memory ∧
    ((write rb call).exec s.memory).1 = .error (.err .dataTooLarge) ∧
    ((write rb call).exec s.memory).2 = s.memory := by
  obtain ⟨m, rb, s, call, hc, hrun, hfits, hp, hcons, hl, hw⟩ :
      ∃ m rb s call, Created ⟨448, 128⟩ m rb ∧
        Reaches Session.step Always (Session.start m rb) s ∧
        SlotsFit rb.slotSize s.memory.header.slotCount ∧
        s.memory.header.producerIdx < s.memory.header.slotCount ∧
        s.memory.header.consumerIdx < s.memory.header.slotCount ∧
        rb.payloadSize < call.data.length ∧
        ((write rb call).exec s.memory).1 = .error (.err .dataTooLarge) := by
    refine ⟨_, _, _, ⟨.custom, List.replicate 65 0, Uuid.nil, 0⟩, ⟨0, Or.inl rfl⟩,
      Reaches.get_runWhere [.write 0 ⟨.custom, [1], Uuid.nil, 0⟩,
        .write 0 ⟨.custom, [2], Uuid.nil, 0⟩] (by decide +kernel), ?_, ?_, ?_, ?_, ?_⟩
    all_goals decide +kernel
  have hvalid : Valid rb s.memory := ⟨hfits, hp, hcons⟩
  exact ⟨m, rb, s, call, hc, hrun, hvalid, hw,
    (write_atomic_iff hvalid call).mpr (Or.inl hl) ⟨_, hw⟩⟩

/-! ## The indices of a full ring -/

namespace Session

section
variable {rb : RingBuffer} {N j : ℕ} {unread : List Message} {s : Session}

/-- In a ring with room, the producer index is `j` slots after the consumer index. -/
theorem Inv.distance_eq (h : Inv rb N j unread s) (hroom : unread.length < N) :
    (s.memory.header.producerIdx + N - s.memory.header.consumerIdx) % N = j := by
  have hlt : s.memory.header.consumerIdx < N := by
    rw [h.rotation.consumerIdx, h.slotCount]
    exact Nat.mod_lt _ (by omega)
  have hp : s.memory.header.producerIdx = (s.memory.header.consumerIdx + j) % N := by
    rw [h.rotation.producerIdx, h.rotation.consumerIdx, h.slotCount, Nat.mod_add_mod]
  have hle := h.rotation.le
  rw [hp, Cyclic.mod_distance hlt (by omega)]

/-- The indices of a full ring are equal when the writes that have failed since it was filled have
moved the producer index by whole laps. -/
theorem Inv.idx_eq_iff (h : Inv rb N j unread s) (hfull : unread.length = N) :
    s.memory.header.producerIdx = s.memory.header.consumerIdx ↔
      N ∣ (maxAttempts + 1) * fullFailures s.history := by
  have hj := h.full hfull
  rw [h.rotation.producerIdx, h.rotation.consumerIdx, h.slotCount]
  constructor
  · intro heq
    have hmod : (delivered s.history).length + j ≡ (delivered s.history).length + 0 [MOD N] := heq
    have hj0 : j % N = 0 % N := Nat.ModEq.add_left_cancel' _ hmod
    rw [hj, Nat.zero_mod] at hj0
    exact Nat.dvd_of_mod_eq_zero hj0
  · intro hdvd
    rw [Nat.mod_eq_zero_of_dvd hdvd] at hj
    rw [Nat.add_mod, hj, Nat.add_zero, Nat.mod_mod]

end

end Session

variable {options : RingBufferOptions} {m : RingMemory} {rb rb' : RingBuffer} {s : Session}

/-- The next `read` of a full ring returns the oldest message, exactly when the writes that have
failed since it was filled have not moved the producer index by whole laps. -/
theorem read_full_iff (hc : Created options m rb) (hN : 0 < m.header.slotCount)
    (hrun : Reaches Session.step Always (Session.start m rb) s)
    (hfull : (accepted s.history).length = (delivered s.history).length + m.header.slotCount)
    (hrb' : rb' ∈ s.handles) :
    (∃ msg, (accepted s.history)[(delivered s.history).length]? = some msg ∧
      ((read rb').exec s.memory).1 = .ok (some msg)) ↔
    ¬ m.header.slotCount ∣ (maxAttempts + 1) * fullFailures s.history := by
  obtain ⟨j, unread, h⟩ := Session.Inv.of_reaches hc hN hrun
  have hlen : unread.length = m.header.slotCount := by
    rw [h.accepted, List.length_append] at hfull
    omega
  have hslot : rb'.slotSize = rb.slotSize := h.handles rb' hrb'
  have hrot := h.rotation
  rw [← payloadSize_eq hslot] at hrot
  have hfits : SlotsFit rb'.slotSize s.memory.header.slotCount := by
    rw [hslot, h.slotCount]
    exact hc.slotsFit hN
  -- In a full ring the failures since it was filled say whether the indices are equal.
  rw [← h.idx_eq_iff hlen]
  constructor
  · rintro ⟨msg, -, hread⟩ heq
    rw [read_empty heq] at hread
    cases hread
  · intro hne
    obtain ⟨msg, rest, m', hunread, hread, -⟩ :=
      hrot.read_some hfits hne
    refine ⟨msg, ?_, by rw [hread]⟩
    rw [h.accepted, hunread]
    simp

/-- A ring of two slots that two writes have just filled reads as empty. -/
theorem read_full_fails : ∃ m rb s, Created ⟨448, 128⟩ m rb ∧ 0 < m.header.slotCount ∧
    Reaches Session.step Always (Session.start m rb) s ∧
    (accepted s.history).length = (delivered s.history).length + m.header.slotCount ∧
    rb ∈ s.handles ∧ ((read rb).exec s.memory).1 = .ok none := by
  refine ⟨_, _, _, ⟨0, Or.inl rfl⟩, ?_, Reaches.get_runWhere
    [.write 0 ⟨.custom, [1], Uuid.nil, 0⟩, .write 0 ⟨.custom, [2], Uuid.nil, 0⟩]
    (by decide +kernel), ?_⟩
  all_goals decide +kernel

/-- After a third write has failed, the same ring is read. -/
theorem read_full_afterFailure : ∃ m rb s, Created ⟨448, 128⟩ m rb ∧
    Reaches Session.step Always (Session.start m rb) s ∧
    (accepted s.history).length = (delivered s.history).length + m.header.slotCount ∧
    ∃ msg, (accepted s.history)[(delivered s.history).length]? = some msg ∧
      ((read rb).exec s.memory).1 = .ok (some msg) := by
  obtain ⟨m, rb, s, hc, hrun, hN, hfull, hrb, hfailed⟩ : ∃ m rb s, Created ⟨448, 128⟩ m rb ∧
      Reaches Session.step Always (Session.start m rb) s ∧ 0 < m.header.slotCount ∧
      (accepted s.history).length = (delivered s.history).length + m.header.slotCount ∧
      rb ∈ s.handles ∧ ¬ m.header.slotCount ∣ (maxAttempts + 1) * fullFailures s.history := by
    refine ⟨_, _, _, ⟨0, Or.inl rfl⟩, Reaches.get_runWhere
      [.write 0 ⟨.custom, [1], Uuid.nil, 0⟩, .write 0 ⟨.custom, [2], Uuid.nil, 0⟩,
        .write 0 ⟨.custom, [3], Uuid.nil, 0⟩] (by decide +kernel), ?_⟩
    decide +kernel
  exact ⟨m, rb, s, hc, hrun, hfull, (read_full_iff hc hN hrun hfull hrb).mpr hfailed⟩

/-- A `write` whose payload fits and that returns `Err` finds the ring full, exactly when the ring
is full or the end of the unread messages is at most ten slots after the producer index. -/
theorem write_full_iff (hc : Created options m rb) (hN : 0 < m.header.slotCount)
    (hrun : Reaches Session.step Always (Session.start m rb) s) (hrb' : rb' ∈ s.handles)
    {call : WriteCall} (hfit : Fits rb' call) :
    ((∃ e, ((write rb' call).exec s.memory).1 = .error (.err e)) →
      (accepted s.history).length = (delivered s.history).length + m.header.slotCount) ↔
    (unreadCount s.history = m.header.slotCount ∨
      unreadCount s.history ≤
        (s.memory.header.producerIdx + m.header.slotCount - s.memory.header.consumerIdx) %
          m.header.slotCount + maxAttempts) := by
  obtain ⟨j, unread, h⟩ := Session.Inv.of_reaches hc hN hrun
  have hacc : (accepted s.history).length = (delivered s.history).length + unread.length := by
    rw [h.accepted, List.length_append]
  have hcount : unreadCount s.history = unread.length := by
    rw [unreadCount, hacc, Nat.add_sub_cancel_left]
  have hslot : rb'.slotSize = rb.slotSize := h.handles rb' hrb'
  have hrot := h.rotation
  rw [← payloadSize_eq hslot] at hrot
  have hfits : SlotsFit rb'.slotSize s.memory.header.slotCount := by
    rw [hslot, h.slotCount]
    exact hc.slotsFit hN
  rw [hcount, hacc]
  rcases hrot.write_cases hfits call with
    ⟨-, hroom, hreach, m', hw, -⟩ | ⟨hbig, -⟩ | ⟨-, hwhy, j', m', hw, -⟩
  · -- A slot is found within the ten attempts.
    rw [h.slotCount] at hroom
    rw [hw, h.distance_eq hroom]
    exact ⟨fun _ => Or.inr hreach, fun _ ⟨e, he⟩ => by cases he⟩
  · exact absurd hfit hbig
  · -- No slot is found: the ring is full, or the end of the messages is too far.
    rw [h.slotCount] at hwhy
    rw [hw]
    constructor
    · intro hfull
      exact Or.inl (by have := hfull ⟨_, rfl⟩; omega)
    · rintro (hfull | hreach) -
      · rw [hfull]
      · rcases hwhy with hfull | hfar
        · rw [hfull]
        · have hle := h.rotation.layout.length_le
          rw [h.slotCount] at hle
          rcases Nat.lt_or_ge unread.length m.header.slotCount with hroom | hge
          · rw [h.distance_eq hroom] at hreach
            omega
          · omega

/-- A ring of 22 slots that is filled refuses one more write, and then, after a read, refuses a
write although it has room. -/
theorem write_full_fails : ∃ m rb s call, Created ⟨3008, 128⟩ m rb ∧ 0 < m.header.slotCount ∧
    Reaches Session.step Always (Session.start m rb) s ∧ rb ∈ s.handles ∧ Fits rb call ∧
    (∃ e, ((write rb call).exec s.memory).1 = .error (.err e)) ∧
    (accepted s.history).length + 1 = (delivered s.history).length + m.header.slotCount := by
  refine ⟨_, _, _, ⟨.custom, [1], Uuid.nil, 0⟩, ⟨0, Or.inl rfl⟩, ?_, Reaches.get_runWhere
    (List.replicate 23 (.write 0 ⟨.custom, [1], Uuid.nil, 0⟩) ++ [.read 0]) (by decide +kernel),
    ?_, ?_, ⟨.ringBufferFull 10, ?_⟩, ?_⟩
  all_goals decide +kernel

/-- A ring of two slots that is filled, refuses a write, and is read has its end within reach. -/
theorem write_full_afterRead : ∃ m rb s call, Created ⟨448, 128⟩ m rb ∧
    Reaches Session.step Always (Session.start m rb) s ∧ unreadCount s.history = 1 ∧
    ((∃ e, ((write rb call).exec s.memory).1 = .error (.err e)) →
      (accepted s.history).length = (delivered s.history).length + m.header.slotCount) := by
  obtain ⟨m, rb, s, call, hc, hrun, hcount, hN, hrb, hfit, hreach⟩ :
      ∃ m rb s call, Created ⟨448, 128⟩ m rb ∧
        Reaches Session.step Always (Session.start m rb) s ∧ unreadCount s.history = 1 ∧
        0 < m.header.slotCount ∧ rb ∈ s.handles ∧ Fits rb call ∧
        unreadCount s.history ≤
          (s.memory.header.producerIdx + m.header.slotCount - s.memory.header.consumerIdx) %
            m.header.slotCount + maxAttempts := by
    refine ⟨_, _, _, ⟨.custom, [4], Uuid.nil, 0⟩, ⟨0, Or.inl rfl⟩, Reaches.get_runWhere
      [.write 0 ⟨.custom, [1], Uuid.nil, 0⟩, .write 0 ⟨.custom, [2], Uuid.nil, 0⟩,
        .write 0 ⟨.custom, [3], Uuid.nil, 0⟩, .read 0] (by decide +kernel), ?_⟩
    decide +kernel
  exact ⟨m, rb, s, call, hc, hrun, hcount, (write_full_iff hc hN hrun hrb hfit).mpr (Or.inr hreach)⟩

end Elgate.Ring
