import Elgate.Disk.IoUring
import Elgate.Foundation.WorkerRuns

/-!
# The fallback disk engine

`src/disk/fallback.rs`. The calls of an engine send their operations to one worker task, whatever
`worker_threads` is: it takes them from the channel and performs them one after the other
(`process`). The engine is therefore an instance of a worker behind a channel (`service`), with the
kernel's results of the system calls as the answers from outside. Other processes may change the
files between two operations. The files are regular ones, and `resolve` says which one a path names,
with its links followed: two paths may name one file.

In every run the operations are performed one at a time, each between its call and its return, so
that the concurrent calls act on the files like calls one after the other; a call that fails on the
channel has not acted on them, and will not (`engine_linearizable`). What `write_file` has
acknowledged is what `read_file` returns, by whichever path of the file (`read_after_write`).
-/

namespace Elgate.Disk.Fallback

open Bytes Transition
open Worker (ChannelError)

/-- Type of disk operation. -/
inductive DiskOperationType
  | read
  | write
  | sync
  | close
  deriving DecidableEq, Repr

/-- A disk I/O operation. -/
structure DiskOperation (Path : Type) where
  /-- Type of operation. -/
  opType : DiskOperationType
  /-- Path to the file. -/
  path : Path
  /-- Offset in the file. -/
  offset : ℕ
  /-- Data buffer (for write operations). -/
  data : Option (List UInt8)

/-- The result of one system call of `write_all`. -/
inductive WriteReply
  /-- Some bytes are written. -/
  | wrote (n : ℕ)
  /-- The call was interrupted. -/
  | interrupted
  /-- The call fails. -/
  | failed (e : IoError)

/-- The results of the system calls, of which an operation makes those of its type. -/
structure Replies where
  /-- That of `open`, unless the file is missing. -/
  opened : Except IoError Unit
  /-- That of `seek`. -/
  seeked : Except IoError Unit
  /-- That of `read`: how many bytes it stores in the buffer. -/
  read : Except IoError ℕ
  /-- Those of `write`, up to the last one, which writes all that is left. -/
  writes : List WriteReply
  /-- That of `sync_all`. -/
  synced : Except IoError Unit

/-- The size of the buffer of a read. -/
def readBufferSize : ℕ := 4096

/-- `write_all` at an offset: it goes on after a write of a part, and after an interrupted call. -/
def writeAll (file : List UInt8) (offset : ℕ) (data : List UInt8) :
    List WriteReply → Except IoError Unit × List UInt8
  | [] => (.ok (), pwrite file offset data)
  | reply :: replies =>
    if data = [] then (.ok (), file)
    else match reply with
      | .wrote n =>
        if n = 0 then (.error "failed to write whole buffer", file)
        else writeAll (pwrite file offset (data.take n)) (offset + n) (data.drop n) replies
      | .interrupted => writeAll file offset data replies
      | .failed e => (.error e, file)

section
variable {Path File : Type} (resolve : Path → File)

/-- The `Read` arm. -/
def processRead (disk : DiskState File) (op : DiskOperation Path) (replies : Replies) :
    Except String (List UInt8) × DiskState File :=
  match disk.openFile (resolve op.path) replies.opened with
  | .ok file =>
    match replies.seeked with
    | .error e => (.error ("Failed to seek: " ++ e), disk)
    | .ok () =>
      match replies.read with
      | .ok n => (.ok (readInto readBufferSize (slice file op.offset n)), disk)
      | .error e => (.error ("Failed to read: " ++ e), disk)
  | .error e => (.error ("Failed to open file: " ++ e), disk)

/-- The `Sync` arm. -/
def processSync (disk : DiskState File) (op : DiskOperation Path) (replies : Replies) :
    Except String (List UInt8) × DiskState File :=
  match disk.openFile (resolve op.path) replies.opened with
  | .ok _ =>
    match replies.synced with
    | .ok () => (.ok [], disk)
    | .error e => (.error ("Failed to sync: " ++ e), disk)
  | .error e => (.error ("Failed to open file: " ++ e), disk)

variable [DecidableEq File]

/-- The `Write` arm. The file is created when it is opened, and is not truncated. -/
def processWrite (disk : DiskState File) (op : DiskOperation Path) (replies : Replies) :
    Except String (List UInt8) × DiskState File :=
  match replies.opened with
  | .ok () =>
    let target := resolve op.path
    let file := (disk.files target).getD []
    match replies.seeked with
    | .error e => (.error ("Failed to seek: " ++ e), disk.setFile target file)
    | .ok () =>
      match op.data with
      | some data =>
        match writeAll file op.offset data replies.writes with
        | (.ok (), file') => (.ok [], disk.setFile target file')
        | (.error e, file') => (.error ("Failed to write: " ++ e), disk.setFile target file')
      | none => (.error "No data provided for write operation", disk.setFile target file)
  | .error e => (.error ("Failed to open file: " ++ e), disk)

/-- One turn of the worker loop: the result for the callback, and the files then. -/
def process (disk : DiskState File) (op : DiskOperation Path) (replies : Replies) :
    Except String (List UInt8) × DiskState File :=
  match op.opType with
  | .read => processRead resolve disk op replies
  | .write => processWrite resolve disk op replies
  | .sync => processSync resolve disk op replies
  | .close => (.ok [], disk)

end

instance (file : List UInt8) (offset bufferSize n : ℕ) :
    Decidable (Completes file offset bufferSize n) :=
  decidable_of_iff
    (n ≤ bufferSize ∧ n ≤ file.length - offset ∧ (n = 0 → file.length ≤ offset))
    ⟨fun h => ⟨h.1, h.2.1, h.2.2⟩, fun h => ⟨h.room, h.available, h.progress⟩⟩

section
variable {Path File : Type} (resolve : Path → File)

/-- What the kernel can answer: it seeks to no offset past `i64::MAX`, and a read completes with
bytes that the file has. -/
structure Replies.Possible (replies : Replies) (disk : DiskState File) (op : DiskOperation Path) :
    Prop where
  /-- The offset of a seek is an `i64`. -/
  seeked : 2^63 ≤ op.offset → replies.seeked.toOption = none
  /-- A read completes. -/
  read : ∀ file ∈ disk.files (resolve op.path), ∀ n ∈ replies.read.toOption,
    Completes file op.offset readBufferSize n

instance (replies : Replies) (disk : DiskState File) (op : DiskOperation Path) :
    Decidable (replies.Possible resolve disk op) :=
  decidable_of_iff
    ((2^63 ≤ op.offset → replies.seeked.toOption = none) ∧
      ∀ file ∈ disk.files (resolve op.path), ∀ n ∈ replies.read.toOption,
        Completes file op.offset readBufferSize n)
    ⟨fun h => ⟨h.1, h.2⟩, fun h => ⟨h.seeked, h.read⟩⟩

variable [DecidableEq File]

/-- The worker of an engine. It does not panic. Other processes may create, change, or remove a
file. -/
def service : Worker.Service (DiskState File) (DiskOperation Path) Replies
    (Except String (List UInt8)) (File × Option (List UInt8)) where
  perform disk op replies :=
    if replies.Possible resolve disk op then
      some (some (process resolve disk op replies).1, (process resolve disk op replies).2)
    else none
  disturb disk change :=
    some { disk with files := Function.update disk.files change.1 change.2 }

/-- An engine with the calls of its methods. -/
abbrev DiskEngine (Path File : Type) :=
  Worker.State (DiskState File) (DiskOperation Path) Replies (Except String (List UInt8))
    (File × Option (List UInt8))

/-- What happens in an engine. -/
abbrev DiskEvent (Path File : Type) :=
  Worker.Event (DiskOperation Path) Replies (Except String (List UInt8))
    (File × Option (List UInt8))

end

/-- Configuration for the disk I/O engine. -/
structure DiskConfig where
  /-- Number of I/O worker threads to use. -/
  workerThreads : ℕ

/-- `DiskConfig::default`. -/
def DiskConfig.default : DiskConfig := ⟨2⟩

/-- The capacity of the channel. -/
def DiskConfig.capacity (config : DiskConfig) : ℕ := config.workerThreads * 32

section
variable {Path File : Type}

/-- `DiskEngine::new`. `mpsc::channel` panics when its capacity is zero. -/
def DiskEngine.new (config : DiskConfig) (disk : DiskState File) :
    Except String (DiskEngine Path File) :=
  if config.capacity = 0 then .error "mpsc bounded channel requires buffer > 0"
  else .ok (Worker.State.start disk)

/-! ## The methods -/

/-- The operation of `DiskEngine::read_file`. -/
def readFile (path : Path) (offset : ℕ) : DiskOperation Path := ⟨.read, path, offset, none⟩

/-- The operation of `DiskEngine::write_file`. -/
def writeFile (path : Path) (offset : ℕ) (data : List UInt8) : DiskOperation Path :=
  ⟨.write, path, offset, some data⟩

/-- The operation of `DiskEngine::sync_file`. -/
def syncFile (path : Path) : DiskOperation Path := ⟨.sync, path, 0, none⟩

/-- The operation of `DiskEngine::close_file`. -/
def closeFile (path : Path) : DiskOperation Path := ⟨.close, path, 0, none⟩

end

/-- What a method returns, with its name for the operation in the contexts of the errors. -/
def methodResult (name : String) :
    Except ChannelError (Except String (List UInt8)) → Except String (List UInt8)
  | .ok result => result
  | .error .send => .error ("Failed to send " ++ name ++ " operation")
  | .error .receive => .error ("Failed to receive " ++ name ++ " result")

/-- What `read_file` returns. -/
def readFileResult (result : Except ChannelError (Except String (List UInt8))) :
    Except String (List UInt8) := methodResult "read" result

/-- What `write_file` returns. -/
def writeFileResult (result : Except ChannelError (Except String (List UInt8))) :
    Except String Unit := (methodResult "write" result).map fun _ => ()

/-- What `sync_file` returns. -/
def syncFileResult (result : Except ChannelError (Except String (List UInt8))) :
    Except String Unit := (methodResult "sync" result).map fun _ => ()

/-- What `close_file` returns. -/
def closeFileResult (result : Except ChannelError (Except String (List UInt8))) :
    Except String Unit := (methodResult "close" result).map fun _ => ()

/-! ## What an operation does to the files -/

section
variable {file bytes data : List UInt8} {offset n k : ℕ}

/-- Every byte of a file after bytes are stored at an offset. -/
theorem getElem?_pwrite_eq (hne : bytes ≠ []) : (pwrite file offset bytes)[k]? =
    if offset ≤ k ∧ k < offset + bytes.length then bytes[k - offset]?
    else if k < file.length then file[k]? else if k < offset then some 0 else none := by
  unfold pwrite
  have hpad : (file ++ List.replicate (offset - file.length) 0).length =
      file.length + (offset - file.length) := by
    rw [List.length_append, List.length_replicate]
  rw [if_neg hne, getElem?_splice (by omega)]
  by_cases hin : offset ≤ k ∧ k < offset + bytes.length
  · rw [if_pos hin, if_pos hin]
  · rw [if_neg hin, if_neg hin]
    by_cases hfile : k < file.length
    · rw [if_pos hfile, List.getElem?_append_left hfile]
    · rw [if_neg hfile, List.getElem?_append_right (Nat.le_of_not_lt hfile),
        List.getElem?_replicate]
      by_cases hgap : k < offset
      · rw [if_pos (by omega), if_pos hgap]
      · rw [if_neg (by omega), if_neg hgap]

/-- The length of a file after bytes are stored at an offset. -/
theorem length_pwrite (hne : bytes ≠ []) :
    (pwrite file offset bytes).length = max file.length (offset + bytes.length) := by
  unfold pwrite
  rw [if_neg hne, splice, List.length_append, List.length_append, List.length_take,
    List.length_drop, List.length_append, List.length_replicate]
  omega

/-- Nothing is stored. -/
theorem pwrite_nil : pwrite file offset [] = file := if_pos rfl

/-- Bytes that are stored in two parts. -/
theorem pwrite_pwrite (hn : 0 < n) :
    pwrite (pwrite file offset (data.take n)) (offset + n) (data.drop n) =
      pwrite file offset data := by
  by_cases hle : data.length ≤ n
  · rw [List.take_of_length_le hle, List.drop_of_length_le hle, pwrite_nil]
  · have hlen : (data.take n).length = n := by rw [List.length_take]; omega
    have hlen' : (data.drop n).length = data.length - n := List.length_drop
    have hne : data.take n ≠ [] := by
      rw [← List.length_pos_iff_ne_nil]
      omega
    have hne' : data.drop n ≠ [] := by
      rw [← List.length_pos_iff_ne_nil]
      omega
    have hne'' : data ≠ [] := by
      rw [← List.length_pos_iff_ne_nil]
      omega
    -- Byte by byte: each is in the first part, in the second, or was in the file.
    apply List.ext_getElem?
    intro k
    rw [getElem?_pwrite_eq hne', getElem?_pwrite_eq hne, getElem?_pwrite_eq hne'',
      length_pwrite hne, hlen, hlen']
    by_cases hfirst : offset ≤ k ∧ k < offset + n
    · -- Among the first part.
      rw [if_neg (by omega), if_pos (by omega), if_pos hfirst, if_pos (by omega),
        List.getElem?_take, if_pos (by omega)]
    · by_cases hsecond : offset + n ≤ k ∧ k < offset + data.length
      · -- Among the second part.
        rw [if_pos (by omega), if_pos (by omega), List.getElem?_drop]
        congr 1
        omega
      · rw [if_neg (by omega), if_neg (c := offset ≤ k ∧ k < offset + n) hfirst,
          if_neg (c := offset ≤ k ∧ k < offset + data.length) (by omega)]
        by_cases hfile : k < file.length
        · rw [if_pos (by omega), if_pos hfile]
        · rw [if_neg (c := k < file.length) hfile]
          by_cases hgap : k < offset
          · rw [if_pos (by omega), if_pos hgap]
          · rw [if_neg (by omega), if_neg (by omega), if_neg hgap]

/-- A `write_all` that succeeds has stored all of the data, however the kernel has split it. -/
theorem writeAll_ok {replies : List WriteReply} {file' : List UInt8}
    (h : writeAll file offset data replies = (.ok (), file')) :
    file' = pwrite file offset data := by
  induction replies generalizing file offset data with
  | nil => exact (Prod.mk.inj h).2.symm
  | cons reply replies ih =>
    unfold writeAll at h
    split at h
    · rename_i hnil
      rw [hnil, pwrite_nil]
      exact (Prod.mk.inj h).2.symm
    · cases reply with
      | wrote n =>
        dsimp only at h
        split at h
        · cases h
        · rw [ih h, pwrite_pwrite (by omega)]
      | interrupted => exact ih h
      | failed e => cases h

/-- A `write_all` has stored a beginning of the data, also when it fails. -/
theorem writeAll_begin (replies : List WriteReply) :
    ∃ n, (writeAll file offset data replies).2 = pwrite file offset (data.take n) := by
  induction replies generalizing file offset data with
  | nil => exact ⟨data.length, by rw [List.take_length]; rfl⟩
  | cons reply replies ih =>
    unfold writeAll
    split
    · exact ⟨0, by rw [List.take_zero, pwrite_nil]⟩
    · cases reply with
      | wrote n =>
        dsimp only
        split
        · exact ⟨0, by rw [List.take_zero, pwrite_nil]⟩
        · -- The rest is stored up to `m` more bytes.
          obtain ⟨m, hm⟩ := @ih (pwrite file offset (data.take n)) (data.drop n) (offset + n)
          have hsplit : pwrite (pwrite file offset ((data.take (n + m)).take n)) (offset + n)
              ((data.take (n + m)).drop n) = pwrite file offset (data.take (n + m)) :=
            pwrite_pwrite (by omega)
          rw [List.take_take, Nat.min_eq_left (Nat.le_add_right n m), List.drop_take,
            Nat.add_sub_cancel_left] at hsplit
          exact ⟨n + m, hm.trans hsplit⟩
      | interrupted => exact ih
      | failed e => exact ⟨0, by rw [List.take_zero, pwrite_nil]⟩

end

/-- The bytes of the data are in the file, from the offset on. -/
def Stored {File : Type} (disk : DiskState File) (target : File) (offset : ℕ)
    (data : List UInt8) : Prop :=
  ∃ file, disk.files target = some file ∧ ∀ i < data.length, file[offset + i]? = data[i]?

/-- The operation writes to one of `len` bytes of a file, by whichever of its paths. -/
def DiskOperation.Touches {Path File : Type} (op : DiskOperation Path) (resolve : Path → File)
    (target : File) (offset len : ℕ) : Prop :=
  op.opType = .write ∧ resolve op.path = target ∧ ∃ data, op.data = some data ∧
    op.offset < offset + len ∧ offset < op.offset + data.length

section
variable {Path File : Type} [DecidableEq File] {resolve : Path → File} {disk : DiskState File}
  {op : DiskOperation Path} {replies : Replies} {path : Path} {target : File} {offset : ℕ}
  {data bytes : List UInt8}

/-- Only a write changes anything. -/
theorem process_of_ne_write (hop : op.opType ≠ .write) :
    (process resolve disk op replies).2 = disk := by
  unfold process
  cases htype : op.opType with
  | write => exact absurd htype hop
  | read =>
    unfold processRead
    dsimp only
    repeat' split
    all_goals rfl
  | sync =>
    unfold processSync
    dsimp only
    repeat' split
    all_goals rfl
  | close => rfl

/-- A write leaves the files as they were, or stores a beginning of its data in its file. -/
theorem processWrite_cases (resolve : Path → File) (disk : DiskState File)
    (op : DiskOperation Path) (replies : Replies) :
    (processWrite resolve disk op replies).2 = disk ∨
    ∃ n, (processWrite resolve disk op replies).2 = disk.setFile (resolve op.path)
      (pwrite ((disk.files (resolve op.path)).getD []) op.offset ((op.data.getD []).take n)) := by
  have hcreated : ∀ data : List UInt8,
      disk.setFile (resolve op.path) ((disk.files (resolve op.path)).getD []) =
        disk.setFile (resolve op.path)
          (pwrite ((disk.files (resolve op.path)).getD []) op.offset (data.take 0)) := by
    intro data
    rw [List.take_zero, pwrite_nil]
  unfold processWrite
  split
  · refine Or.inr ?_
    dsimp only
    split
    · exact ⟨0, hcreated _⟩
    · split
      · rename_i data hdata
        obtain ⟨n, hn⟩ := @writeAll_begin ((disk.files (resolve op.path)).getD []) data op.offset
          replies.writes
        refine ⟨n, ?_⟩
        rw [hdata, Option.getD_some, ← hn]
        split <;> rename_i hwritten <;> rw [hwritten]
      · exact ⟨0, hcreated _⟩
  · exact Or.inl rfl

/-- An operation changes no other file. -/
theorem process_files_of_ne (hne : target ≠ resolve op.path) :
    (process resolve disk op replies).2.files target = disk.files target := by
  by_cases hop : op.opType = .write
  · unfold process
    rw [hop]
    dsimp only
    rcases processWrite_cases resolve disk op replies with hsame | ⟨n, hset⟩
    · rw [hsame]
    · rw [hset]
      exact Function.update_of_ne hne _ _
  · rw [process_of_ne_write hop]

/-- A write that succeeds has stored its data. -/
theorem stored_of_write (hop : op.opType = .write) (hdata : op.data = some data)
    (hok : (process resolve disk op replies).1 = .ok bytes) :
    Stored (process resolve disk op replies).2 (resolve op.path) op.offset data := by
  unfold process at hok ⊢
  rw [hop] at hok ⊢
  unfold processWrite at hok ⊢
  dsimp only at hok ⊢
  -- The arm returns the error of the first call that fails.
  cases hopened : replies.opened with
  | error e =>
    rw [hopened] at hok
    cases hok
  | ok opened =>
    cases hseeked : replies.seeked with
    | error e =>
      rw [hopened, hseeked] at hok
      cases hok
    | ok seeked =>
      rw [hopened, hseeked, hdata] at hok
      rw [hdata]
      dsimp only at hok ⊢
      cases hwritten : writeAll ((disk.files (resolve op.path)).getD []) op.offset data
        replies.writes with
      | mk result file' =>
        rw [hwritten] at hok
        cases result with
        | error e => cases hok
        | ok done =>
          obtain rfl := writeAll_ok hwritten
          refine ⟨_, Function.update_self _ _ _, fun i hi => ?_⟩
          rw [getElem?_pwrite (Or.inr (Nat.le_add_right _ _)), if_pos (by omega),
            Nat.add_sub_cancel_left]

/-- Data that is stored stays so, but for a write to it. -/
theorem Stored.process (h : Stored disk target offset data)
    (hop : ¬ op.Touches resolve target offset data.length) :
    Stored (process resolve disk op replies).2 target offset data := by
  obtain ⟨file, hfile, hbytes⟩ := h
  by_cases htarget : target = resolve op.path
  · by_cases hwrite : op.opType = .write
    · subst htarget
      unfold Fallback.process
      rw [hwrite]
      dsimp only
      rcases processWrite_cases resolve disk op replies with
        hsame | ⟨n, hset⟩
      · rw [hsame]
        exact ⟨file, hfile, hbytes⟩
      · rw [hset, hfile, Option.getD_some]
        refine ⟨_, Function.update_self _ _ _, fun i hi => ?_⟩
        have hbyte := hbytes i hi
        have hlt : offset + i < file.length := by
          rw [List.getElem?_eq_getElem hi] at hbyte
          exact (List.getElem?_eq_some_iff.mp hbyte).1
        -- The bytes that are written are others.
        have hout : ¬ (op.offset ≤ offset + i ∧
            offset + i < op.offset + ((op.data.getD []).take n).length) := by
          rintro ⟨hle, hlt'⟩
          rw [List.length_take] at hlt'
          cases hdata : op.data with
          | none =>
            rw [hdata, Option.getD_none, List.length_nil] at hlt'
            omega
          | some written =>
            rw [hdata, Option.getD_some] at hlt'
            exact hop ⟨hwrite, rfl, written, hdata, by omega, by omega⟩
        rw [getElem?_pwrite (Or.inl hlt), if_neg hout, hbyte]
    · rw [process_of_ne_write hwrite]
      exact ⟨file, hfile, hbytes⟩
  · exact ⟨file, by rw [process_files_of_ne htarget, hfile], hbytes⟩

/-- What a read that succeeds returns. -/
theorem read_of_stored (h : Stored disk target offset data) (hop : op.opType = .read)
    (htarget : resolve op.path = target) (hpossible : replies.Possible resolve disk op)
    (hok : (process resolve disk op replies).1 = .ok bytes) :
    (∀ k < bytes.length, offset ≤ op.offset + k → op.offset + k < offset + data.length →
      bytes[k]? = data[op.offset + k - offset]?) ∧
    (offset ≤ op.offset → op.offset < offset + data.length → bytes ≠ []) := by
  obtain ⟨file, hfile, hbytes⟩ := h
  subst htarget
  unfold process at hok
  rw [hop] at hok
  unfold processRead DiskState.openFile at hok
  dsimp only at hok
  rw [hfile] at hok
  dsimp only at hok
  cases hopened : replies.opened with
  | error e =>
    rw [hopened] at hok
    cases hok
  | ok opened =>
    cases hseeked : replies.seeked with
    | error e =>
      rw [hopened, hseeked] at hok
      cases hok
    | ok seeked =>
      cases hread : replies.read with
      | error e =>
        rw [hopened, hseeked, hread] at hok
        cases hok
      | ok n =>
        rw [hopened, hseeked, hread] at hok
        have hslice : slice file op.offset n = bytes := by
          rw [← readInto_eq readBufferSize (slice file op.offset n)]
          exact Except.ok.inj hok
        have hcompletes : Completes file op.offset readBufferSize n :=
          hpossible.read file (by rw [hfile]; rfl) n (by rw [hread]; rfl)
        have hlen := hcompletes.length_slice
        rw [hslice] at hlen
        constructor
        · intro k hk hle hlt
          have hbyte := hbytes (op.offset + k - offset) (by omega)
          rw [Nat.add_sub_cancel' hle] at hbyte
          rw [← hslice, getElem?_slice, if_pos (by omega), hbyte]
        · rintro hle hlt rfl
          -- The file has a byte there.
          have hend := hcompletes.progress hlen.symm
          have hbyte := hbytes (op.offset - offset) (by omega)
          rw [Nat.add_sub_cancel' hle, List.getElem?_eq_none hend,
            List.getElem?_eq_getElem (by omega)] at hbyte
          cases hbyte

/-! ## Runs of an engine -/

variable {config : DiskConfig} {start s : DiskEngine Path File}

/-- An operation that is performed has the result that its arm computes. -/
theorem service_perform_eq_some {reply : Option (Except String (List UInt8))}
    {disk' : DiskState File} (h : (service resolve).perform disk op replies = some (reply, disk')) :
    replies.Possible resolve disk op ∧ reply = some (process resolve disk op replies).1 ∧
      disk' = (process resolve disk op replies).2 := by
  unfold service at h
  dsimp only at h
  split at h
  · rename_i hpossible
    obtain ⟨hreply, hdisk⟩ := Prod.mk.inj (Option.some.inj h)
    exact ⟨hpossible, hreply.symm, hdisk.symm⟩
  · cases h

omit [DecidableEq File] in
/-- A new engine has no calls. -/
theorem start_of_new (hnew : DiskEngine.new config disk = .ok start) :
    start = Worker.State.start disk ∧ 0 < config.capacity := by
  unfold DiskEngine.new at hnew
  split at hnew
  · cases hnew
  · exact ⟨(Except.ok.inj hnew).symm, by omega⟩

/-- What the calls return that return no data, of an engine with this history on these files. -/
structure SyncsAndCloses (resolve : Path → File) (disk : DiskState File)
    (history : List (DiskEvent Path File)) : Prop where
  /-- `sync_file` succeeds when `sync_all` of the file has, during the call. -/
  sync : ∀ before i path during result after,
    history = before ++ .called i (syncFile path) :: during ++ .returned i result :: after →
    (syncFileResult result = .ok () ↔ ∃ early replies reply late,
      during = early ++ .performed i (syncFile path) replies reply :: late ∧
      (Worker.replay (service resolve) disk (before ++ .called i (syncFile path) :: early)).files
        (resolve path) ≠ none ∧
      replies.opened = .ok () ∧ replies.synced = .ok ())
  /-- `close_file` fails on the channel only. -/
  close : ∀ before i path during result after,
    history = before ++ .called i (closeFile path) :: during ++ .returned i result :: after →
    closeFileResult result = .ok () ∨
      closeFileResult result = .error "Failed to send close operation" ∨
      closeFileResult result = .error "Failed to receive close result"

/-- An operation that syncs a file succeeds when its system calls do. -/
theorem sync_ok_iff : syncFileResult (.ok (process resolve disk (syncFile path) replies).1) =
    .ok () ↔ disk.files (resolve path) ≠ none ∧ replies.opened = .ok () ∧
      replies.synced = .ok () := by
  show syncFileResult (.ok (processSync resolve disk (syncFile path) replies).1) = .ok () ↔ _
  unfold processSync DiskState.openFile syncFile
  dsimp only
  cases hfile : disk.files (resolve path) with
  | none => exact iff_of_false nofun fun h => h.1 rfl
  | some file =>
    cases hopened : replies.opened with
    | error e => exact iff_of_false nofun fun h => nomatch h.2.1
    | ok opened =>
      cases hsynced : replies.synced with
      | error e => exact iff_of_false nofun fun h => nomatch h.2.2
      | ok synced => exact iff_of_true rfl ⟨Option.some_ne_none _, rfl, rfl⟩

/-- The reply to the operation of a call is the result that its arm computes. -/
theorem reply_of_lawful {before early late : List (DiskEvent Path File)} {i : ℕ}
    {reply : Option (Except String (List UInt8))}
    (hlawful : Worker.Lawful (service resolve) config.capacity disk
      (before ++ .called i op :: (early ++ .performed i op replies reply :: late))) :
    reply = some (process resolve
      (Worker.replay (service resolve) disk (before ++ .called i op :: early)) op replies).1 := by
  obtain ⟨disk', hperform⟩ := hlawful.linearizable.sequential (before ++ .called i op :: early)
    i op replies reply late (by simp)
  exact (service_perform_eq_some hperform).2.1

/-- The calls of a lawful history return so. -/
theorem SyncsAndCloses.of_lawful {history : List (DiskEvent Path File)}
    (hlawful : Worker.Lawful (service resolve) config.capacity disk history) :
    SyncsAndCloses resolve disk history where
  sync before i path during result after heq := by
    subst heq
    have hlinear := hlawful.linearizable
    constructor
    · intro hok
      obtain ⟨reply, rfl⟩ : ∃ reply, result = .ok reply := by
        match result, hok with
        | .ok reply, _ => exact ⟨reply, rfl⟩
      -- The operation is performed during the call, on the files of that moment.
      obtain ⟨early, replies, late, rfl⟩ := hlawful.performed_between
      rw [Option.some.inj (reply_of_lawful hlawful.left)] at hok
      exact ⟨early, replies, _, late, rfl, sync_ok_iff.mp hok⟩
    · rintro ⟨early, replies, reply, late, rfl, hcalls⟩
      have hperformed : .performed i (syncFile path) replies reply ∈ before ++
          .called i (syncFile path) :: (early ++ .performed i (syncFile path) replies reply ::
            late) := by simp
      obtain rfl := reply_of_lawful hlawful.left
      rw [← sync_ok_iff] at hcalls
      cases result with
      | ok reply' =>
        -- It has the reply to its operation, which is performed once.
        obtain ⟨op', replies', hmem⟩ := hlinear.own _ i reply' after rfl
        obtain ⟨-, -, hreply⟩ := hlawful.performed_eq (List.mem_append_left _ hmem)
          (List.mem_append_left _ hperformed)
        rw [Option.some.inj hreply]
        exact hcalls
      | error error =>
        -- A call that fails on the channel is never performed.
        exact absurd (List.mem_append_left _ hperformed)
          ((hlinear.failed _ i error after rfl).2 _ _ _)
  close before i path during result after heq := by
    subst heq
    match result with
    | .error .send => exact Or.inr (Or.inl rfl)
    | .error .receive => exact Or.inr (Or.inr rfl)
    | .ok reply =>
      obtain ⟨early, replies, late, rfl⟩ := hlawful.performed_between
      rw [Option.some.inj (reply_of_lawful hlawful.left)]
      exact Or.inl rfl

/-- In every run of an engine, the operations are performed one after the other, each between its
call and its return, and a call that fails on the channel has not been performed and will not be. -/
theorem engine_linearizable (hnew : DiskEngine.new config disk = .ok start)
    (hrun : Reaches (Worker.step (service resolve) config.capacity) Always start s) :
    Worker.Linearizable (service resolve) disk s.history ∧
      s.world = Worker.replay (service resolve) disk s.history ∧
      s.channel.length ≤ config.workerThreads * 32 ∧
      (∀ i op replies reply, .performed i op replies reply ∈ s.history → reply ≠ none) ∧
      (∀ i error, .returned i (.error error) ∈ s.history → .stopped ∈ s.history ∧
        ∀ op replies reply, .performed i op replies reply ∉ s.history) ∧
      SyncsAndCloses resolve disk s.history := by
  obtain ⟨rfl, -⟩ := start_of_new hnew
  have hinv := Worker.Inv.of_reaches hrun
  have hlinear := hinv.lawful.linearizable
  have hreplies : ∀ i op replies reply,
      .performed i op replies reply ∈ s.history → reply ≠ none := by
    intro i op replies reply hmem
    obtain ⟨past, future, heq⟩ := List.append_of_mem hmem
    obtain ⟨disk', hperform⟩ := hlinear.sequential _ _ _ _ _ _ heq
    rw [(service_perform_eq_some hperform).2.1]
    exact Option.some_ne_none _
  refine ⟨hlinear, hinv.world, hinv.room, hreplies, fun i error hmem => ?_,
    SyncsAndCloses.of_lawful hinv.lawful⟩
  -- A call fails on the channel only after the worker has ended.
  obtain ⟨past, future, heq⟩ := List.append_of_mem hmem
  obtain ⟨⟨e, he, hstops⟩, hnot⟩ := hlinear.failed _ _ _ _ heq
  have hin : e ∈ s.history := by
    rw [heq]
    exact List.mem_append_left _ he
  constructor
  · -- The worker does not panic, so it was stopped.
    match e, hstops with
    | .stopped, _ => exact hin
    | .performed j op replies none, _ => exact absurd rfl (hreplies _ _ _ _ hin)
  · intro op replies reply hperformed
    cases reply with
    | none => exact hreplies _ _ _ _ hperformed rfl
    | some reply => exact hnot op replies reply hperformed

/-- The worker is stopped while a write is in the channel. -/
theorem engine_linearizable_stopped : ∃ start s : DiskEngine Unit Unit,
    DiskEngine.new ⟨1⟩ ⟨fun _ => none, []⟩ = .ok start ∧
    Reaches (Worker.step (service id) (DiskConfig.capacity ⟨1⟩)) Always start s ∧
    .returned 0 (.error .receive) ∈ s.history ∧
    ∀ op replies reply, .performed 0 op replies reply ∉ s.history := by
  obtain ⟨s, hrun, hreturned⟩ : ∃ s : DiskEngine Unit Unit,
      Reaches (Worker.step (service id) (DiskConfig.capacity ⟨1⟩)) Always
        (Worker.State.start ⟨fun _ => none, []⟩) s ∧ .returned 0 (.error .receive) ∈ s.history :=
    ⟨_, Reaches.get_runWhere [.call (writeFile () 0 [1]), .send 0, .stop, .forsake 0]
      (by decide +kernel), List.mem_of_getElem? (i := 3) rfl⟩
  obtain ⟨-, -, -, -, hfailed, -⟩ := engine_linearizable rfl hrun
  exact ⟨_, s, rfl, hrun, hreturned, (hfailed 0 .receive hreturned).2⟩

/-- Data that is stored stays so, but for a write to it and for a change of the file by another
process. -/
theorem Stored.apply (h : Stored disk target offset data) (e : DiskEvent Path File)
    (hwrites : ∀ k op replies reply, e = .performed k op replies reply →
      ¬ op.Touches resolve target offset data.length)
    (houtside : ∀ contents, e ≠ .disturbed (target, contents)) :
    Stored (e.apply (service resolve) disk) target offset data := by
  cases e with
  | performed k op replies reply =>
    have hkept : Stored (Fallback.process resolve disk op replies).2 target offset data :=
      h.process (hwrites k op replies reply rfl)
    unfold Worker.Event.apply service
    dsimp only
    split
    · exact hkept
    · exact h
  | disturbed change =>
    obtain ⟨file, hfile, hbytes⟩ := h
    have hne : target ≠ change.1 := by
      rintro rfl
      exact houtside change.2 rfl
    exact ⟨file, (Function.update_of_ne hne _ _).trans hfile, hbytes⟩
  | called | sent | taken | returned | cancelled | stopped => exact h

/-- Whatever else is called, a read that is called after a write has been acknowledged returns the
data of the write, where it reads there, and does read some of it. The two may name the file by
different paths. No other call that is not over before, or that starts before the read is over, may
write there, by any path of the file, and no other process may change the file in the meantime. -/
theorem read_after_write (hnew : DiskEngine.new config disk = .ok start)
    (hrun : Reaches (Worker.step (service resolve) config.capacity) Always start s)
    {path' : Path} (hsame : resolve path' = resolve path)
    {before during between asked after : List (DiskEvent Path File)} {i j readOffset : ℕ}
    {written read : Except ChannelError (Except String (List UInt8))}
    (hhistory : s.history = before ++ .called i (writeFile path offset data) :: during ++
      .returned i written :: between ++ .called j (readFile path' readOffset) :: asked ++
      .returned j read :: after)
    (hwritten : writeFileResult written = .ok ()) (hread : readFileResult read = .ok bytes)
    (hothers : ∀ k op, .called k op ∈ s.history →
      op.Touches resolve (resolve path) offset data.length →
        k = i ∨ (∃ result, .returned k result ∈ before) ∨ .called k op ∈ after)
    (houtside : ∀ contents, .disturbed (resolve path, contents) ∉ during ++ between ++ asked) :
    (∀ k < bytes.length, offset ≤ readOffset + k → readOffset + k < offset + data.length →
      bytes[k]? = data[readOffset + k - offset]?) ∧
    (offset ≤ readOffset → readOffset < offset + data.length → bytes ≠ []) := by
  obtain ⟨rfl, -⟩ := start_of_new hnew
  have hlawful := (Worker.Inv.of_reaches hrun).lawful
  have hlinear := hlawful.linearizable
  obtain ⟨stored, rfl⟩ : ∃ stored, written = .ok (.ok stored) := by
    match written, hwritten with
    | .ok (.ok stored), _ => exact ⟨stored, rfl⟩
  obtain rfl : read = .ok (.ok bytes) := by
    match read, hread with
    | .ok (.ok bytes'), hread => rw [show bytes' = bytes from Except.ok.inj hread]
  have hfirst : s.history = before ++ .called i (writeFile path offset data) :: during ++
      .returned i (.ok (.ok stored)) :: (between ++ .called j (readFile path' readOffset) ::
      asked ++ .returned j (.ok (.ok bytes)) :: after) := by
    rw [hhistory]
    simp
  have hsecond : s.history = (before ++ .called i (writeFile path offset data) :: during ++
      .returned i (.ok (.ok stored)) :: between) ++ .called j (readFile path' readOffset) ::
      asked ++ .returned j (.ok (.ok bytes)) :: after := hhistory
  -- Both operations are performed while their calls are in progress.
  obtain ⟨early, replies, late, rfl⟩ := (hfirst ▸ hlawful).performed_between
  obtain ⟨asking, replies', answering, rfl⟩ := (hsecond ▸ hlawful).performed_between
  generalize hpast : before ++ .called i (writeFile path offset data) :: early = past
  generalize hmiddle : late ++ .returned i (.ok (.ok stored)) :: between ++
    .called j (readFile path' readOffset) :: asking = middle
  have hshape : s.history = past ++
      .performed i (writeFile path offset data) replies (some (.ok stored)) :: middle ++
      .performed j (readFile path' readOffset) replies' (some (.ok bytes)) :: (answering ++
      .returned j (.ok (.ok bytes)) :: after) := by
    rw [hhistory, ← hpast, ← hmiddle]
    simp
  have hshape' : s.history = past ++
      .performed i (writeFile path offset data) replies (some (.ok stored)) :: (middle ++
      .performed j (readFile path' readOffset) replies' (some (.ok bytes)) :: (answering ++
      .returned j (.ok (.ok bytes)) :: after)) := by
    rw [hshape, List.append_assoc, List.cons_append]
  obtain ⟨disk', hwrite⟩ := hlinear.sequential _ _ _ _ _ _ hshape'
  obtain ⟨disk'', hreads⟩ := hlinear.sequential _ _ _ _ _ _ hshape
  obtain ⟨-, hreply, hdisk'⟩ := service_perform_eq_some hwrite
  obtain ⟨hpossible, hreply', -⟩ := service_perform_eq_some hreads
  -- The write leaves its data in the file, and nothing changes it up to the read.
  have hstored : Stored disk' (resolve path) offset data := by
    rw [hdisk']
    exact stored_of_write rfl rfl (Option.some.inj hreply).symm
  have hkept : Stored (Worker.replay (service resolve) disk' middle) (resolve path) offset
      data := by
    refine Worker.replay_of_keeps (P := fun w => Stored w (resolve path) offset data) hstored
      fun e he w hw => hw.apply e ?_ ?_
    · rintro k op replies'' reply rfl htouches
      obtain ⟨left, right, rfl⟩ := List.append_of_mem he
      have hposition : s.history = (past ++
          .performed i (writeFile path offset data) replies (some (.ok stored)) :: left) ++
          .performed k op replies'' reply :: (right ++
          .performed j (readFile path' readOffset) replies' (some (.ok bytes)) :: (answering ++
          .returned j (.ok (.ok bytes)) :: after)) := by
        rw [hshape']
        simp
      obtain ⟨hcalled, hpending⟩ := hlinear.within _ _ _ _ _ _ hposition
      have hmem : .called k op ∈ s.history := by
        rw [hposition]
        exact List.mem_append_left _ hcalled
      rcases hothers k op hmem htouches with rfl | ⟨result, hover⟩ | hlater
      · -- The write is performed once.
        exact (hposition ▸ hlawful).of_performed.1 (Worker.performedId_mem
          (List.mem_append_right _ List.mem_cons_self))
      · refine hpending result (List.mem_append_left _ ?_)
        rw [← hpast]
        exact List.mem_append_left _ hover
      · -- A call that starts after the read is over has another ticket.
        obtain ⟨left', right', rfl⟩ := List.append_of_mem hlater
        have hcalls : s.history = (past ++
            .performed i (writeFile path offset data) replies (some (.ok stored)) :: left ++
            .performed k op replies'' reply :: right ++
            .performed j (readFile path' readOffset) replies' (some (.ok bytes)) :: answering ++
            .returned j (.ok (.ok bytes)) :: left') ++ .called k op :: right' := by
          rw [hposition]
          simp
        refine ((hcalls ▸ hlawful).called_unique op).1 ?_
        simp only [List.append_assoc, List.mem_append] at hcalled ⊢
        exact hcalled.elim Or.inl fun h => Or.inr (Or.inl h)
    · rintro contents rfl
      refine houtside contents ?_
      rw [← hmiddle] at he
      simp only [List.mem_append, List.mem_cons, reduceCtorEq, false_or] at he ⊢
      tauto
  have hreplay : Worker.replay (service resolve) disk (past ++
      .performed i (writeFile path offset data) replies (some (.ok stored)) :: middle) =
      Worker.replay (service resolve) disk' middle := by
    rw [Worker.replay_append_append]
    show Worker.replay (service resolve) (Worker.Event.apply (service resolve) _ _) middle = _
    rw [show Worker.Event.apply (service resolve) (Worker.replay (service resolve) disk past)
      (.performed i (writeFile path offset data) replies (some (.ok stored))) = disk' by
        simp [Worker.Event.apply, hwrite]]
  rw [hreplay] at hpossible hreply'
  exact read_of_stored hkept rfl hsame hpossible (Option.some.inj hreply').symm

/-- The actions of a call that nobody disturbs. -/
def wholeCall (i : ℕ) (op : DiskOperation Bool) (replies : Replies) :
    List (Worker.Action (DiskOperation Bool) Replies (Unit × Option (List UInt8))) :=
  [.call op, .send i, .take, .perform replies, .receive i]

/-- Two bytes are written to a new file by three system calls, and the second one is read back by
another path of the file. -/
theorem read_after_write_second : ∃ start s : DiskEngine Bool Unit,
    DiskEngine.new ⟨1⟩ ⟨fun _ => none, []⟩ = .ok start ∧
    Reaches (Worker.step (service fun _ => ()) (DiskConfig.capacity ⟨1⟩)) Always start s ∧
    .returned 1 (.ok (.ok [2])) ∈ s.history ∧
    ([2] : List UInt8)[0]? = ([1, 2] : List UInt8)[1]? := by
  let replies : Replies := ⟨.ok (), .ok (), .ok 1, [.interrupted, .wrote 1], .ok ()⟩
  obtain ⟨s, hrun, hhistory⟩ : ∃ s : DiskEngine Bool Unit,
      Reaches (Worker.step (service fun _ => ()) (DiskConfig.capacity ⟨1⟩)) Always
        (Worker.State.start ⟨fun _ => none, []⟩) s ∧
      s.history = [] ++ .called 0 (writeFile true 0 [1, 2]) ::
        [.sent 0, .taken 0, .performed 0 (writeFile true 0 [1, 2]) replies (some (.ok []))] ++
        .returned 0 (.ok (.ok [])) :: [] ++ .called 1 (readFile false 1) ::
        [.sent 1, .taken 1, .performed 1 (readFile false 1) replies (some (.ok [2]))] ++
        .returned 1 (.ok (.ok [2])) :: [] :=
    ⟨_, Reaches.get_runWhere (wholeCall 0 (writeFile true 0 [1, 2]) replies ++
      wholeCall 1 (readFile false 1) replies) (by decide +kernel), rfl⟩
  have hread := read_after_write rfl hrun rfl hhistory rfl rfl (by
    intro k op hmem htouches
    rw [hhistory] at hmem
    simp only [List.nil_append, List.cons_append, List.mem_cons, Worker.Event.called.injEq,
      reduceCtorEq, List.not_mem_nil, or_false, false_or] at hmem
    rcases hmem with ⟨rfl, -⟩ | ⟨rfl, rfl⟩
    · exact Or.inl rfl
    · exact absurd htouches.1 (by decide)) (by simp)
  exact ⟨_, s, rfl, hrun, by rw [hhistory]; simp, hread.1 0 (by decide) (by decide) (by decide)⟩

/-- While a call is in progress, a caller or the worker can take a step; and in a whole run they
take no more than four for each call. -/
theorem engine_completes (hnew : DiskEngine.new config disk = .ok start)
    {as : List (Worker.Action (DiskOperation Path) Replies (File × Option (List UInt8)))}
    (hrun : runWhere (Worker.step (service resolve) config.capacity) Always start as = some s) :
    as.length ≤ 4 * (Worker.calledOps s.history).length + as.countP (fun a => !a.Internal) ∧
      ∀ i, s.phase i ≠ none →
        ∃ a : Worker.Action (DiskOperation Path) Replies (File × Option (List UInt8)),
          a.Internal = true ∧
            (Worker.step (service resolve) config.capacity s a).isSome = true := by
  obtain ⟨rfl, hcapacity⟩ := start_of_new hnew
  refine ⟨Worker.length_le hrun, fun i hphase => ?_⟩
  refine (Worker.Inv.of_reaches (Reaches.of_runWhere hrun)).progress hcapacity ?_ hphase
  intro disk op
  -- The kernel can refuse every system call.
  have hpossible : Replies.Possible resolve ⟨.error "", .error "", .error "", [], .error ""⟩ disk
      op :=
    ⟨fun _ => rfl, by rintro file - n ⟨⟩⟩
  refine ⟨⟨.error "", .error "", .error "", [], .error ""⟩, ?_⟩
  unfold service
  dsimp only
  rw [if_pos hpossible]
  rfl

/-- A call that has just started can send its operation. -/
theorem engine_completes_first : ∃ start s : DiskEngine Unit Unit,
    DiskEngine.new ⟨1⟩ ⟨fun _ => none, []⟩ = .ok start ∧
    Worker.step (service id) (DiskConfig.capacity ⟨1⟩) start (.call (closeFile ())) = some s ∧
    s.phase 0 ≠ none ∧
    ∃ a : Worker.Action (DiskOperation Unit) Replies (Unit × Option (List UInt8)),
      a.Internal = true ∧
        (Worker.step (service id) (DiskConfig.capacity ⟨1⟩) s a).isSome = true := by
  obtain ⟨s, hrun, hstep, hphase⟩ : ∃ s : DiskEngine Unit Unit,
      runWhere (Worker.step (service id) (DiskConfig.capacity ⟨1⟩)) Always
        (Worker.State.start ⟨fun _ => none, []⟩) [.call (closeFile ())] = some s ∧
      Worker.step (service id) (DiskConfig.capacity ⟨1⟩) (Worker.State.start ⟨fun _ => none, []⟩)
        (.call (closeFile ())) = some s ∧ s.phase 0 ≠ none :=
    ⟨_, rfl, rfl, Option.some_ne_none _⟩
  exact ⟨_, s, rfl, hstep, hphase, (engine_completes rfl hrun).2 0 hphase⟩

end

end Elgate.Disk.Fallback
