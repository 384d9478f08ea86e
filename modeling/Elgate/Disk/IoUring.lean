import Elgate.Foundation.Bytes
import Elgate.Ring.Slot

/-!
# The io_uring disk engine

`src/disk/io_uring.rs`. The kernel is a parameter of each call: whether it opens the file, and how
the read or the write completes, with an error or with a count of bytes. `write_file` drops the
count of a write that completes, so that it acknowledges a write that the kernel has cut short.
`writeFile_noLostBytes_iff` says when nothing is lost: for a count below the length of the data,
only when the bytes that were not stored are those that the file had.
-/

namespace Elgate.Disk

open Bytes
open Elgate.Ring (OperationKind)

/-- The files, and what the engine has handed to the ring buffer. -/
structure DiskState (Path : Type) where
  /-- The bytes of the file at a path, if there is one. -/
  files : Path → Option (List UInt8)
  /-- The operations of the calls of `RingBuffer::write`, oldest first. -/
  notified : List (OperationKind × List UInt8)

/-- What `Display` prints of an `io::Error`. -/
abbrev IoError := String

section
variable {Path : Type} (pathBytes : Path → List UInt8)

/-- A call of `RingBuffer::write`, whose result is dropped. -/
def DiskState.notify (disk : DiskState Path) (kind : OperationKind) (path : Path) :
    DiskState Path :=
  { disk with notified := disk.notified ++ [(kind, pathBytes path)] }

/-- `File::open`, when the kernel has no other reason to fail than `opened`. -/
def DiskState.openFile (disk : DiskState Path) (path : Path) (opened : Except IoError Unit) :
    Except IoError (List UInt8) :=
  match disk.files path with
  | none => .error "No such file or directory (os error 2)"
  | some file => opened.map fun _ => file

/-- The file after bytes are stored at an offset. A gap after its end is filled with zeros. -/
def pwrite (file : List UInt8) (offset : ℕ) (bytes : List UInt8) : List UInt8 :=
  if bytes = [] then file
  else splice (file ++ List.replicate (offset - file.length) 0) offset bytes

/-- `DiskEngine::read_file`. A read that completes with `n` has stored the first `n` bytes from the
offset on in the buffer, which is then cut to them. -/
def readFile (bufferSize : ℕ) (disk : DiskState Path) (path : Path) (offset : ℕ)
    (opened : Except IoError Unit) (read : Except IoError ℕ) :
    Except String (List UInt8) × DiskState Path :=
  match disk.openFile path opened with
  | .error e => (.error ("Failed to open file: " ++ e), disk)
  | .ok file =>
    match read with
    | .error e => (.error ("Failed to read file: " ++ e), disk)
    | .ok n =>
      (.ok (readInto bufferSize (slice file offset n)), disk.notify pathBytes .diskRead path)

section
variable [DecidableEq Path]

/-- The file at a path is created, or replaced. -/
def DiskState.setFile (disk : DiskState Path) (path : Path) (file : List UInt8) : DiskState Path :=
  { disk with files := Function.update disk.files path (some file) }

/-- `DiskEngine::write_file`. The file is created when it is opened. A write that completes with `n`
has stored the first `n` bytes. -/
def writeFile (disk : DiskState Path) (path : Path) (offset : ℕ) (data : List UInt8)
    (opened : Except IoError Unit) (written : Except IoError (Fin (data.length + 1))) :
    Except String Unit × DiskState Path :=
  match opened with
  | .error e => (.error ("Failed to open file for writing: " ++ e), disk)
  | .ok () =>
    let file := (disk.files path).getD []
    match written with
    | .error e => (.error ("Failed to write to file: " ++ e), disk.setFile path file)
    | .ok n =>
      (.ok (), (disk.setFile path (pwrite file offset (data.take n))).notify pathBytes
        .diskWrite path)

end

/-! ## Reading a file to its end -/

/-- A read of the file at an offset can complete with `n`: any number of the bytes that there are,
but not with none of them. -/
structure Completes (file : List UInt8) (offset bufferSize n : ℕ) : Prop where
  /-- The buffer has room for them. -/
  room : n ≤ bufferSize
  /-- The file has them. -/
  available : n ≤ file.length - offset
  /-- There are none at the end of the file only. -/
  progress : n = 0 → file.length ≤ offset

/-- Calls of `read_file` from an offset on, each where the one before has ended, until one returns
nothing: the bytes that they return. -/
inductive ReadBack (bufferSize : ℕ) (path : Path) : DiskState Path → ℕ → List UInt8 → Prop
  /-- A call returns nothing. -/
  | done {disk disk' : DiskState Path} {file : List UInt8} {offset n : ℕ}
    (hfile : disk.files path = some file) (hn : Completes file offset bufferSize n)
    (hread : readFile pathBytes bufferSize disk path offset (.ok ()) (.ok n) = (.ok [], disk')) :
    ReadBack bufferSize path disk offset []
  /-- A call returns bytes. -/
  | more {disk disk' : DiskState Path} {file bytes rest : List UInt8} {offset n : ℕ}
    (hfile : disk.files path = some file) (hn : Completes file offset bufferSize n)
    (hread : readFile pathBytes bufferSize disk path offset (.ok ()) (.ok n) = (.ok bytes, disk'))
    (hne : bytes ≠ []) (hrest : ReadBack bufferSize path disk' (offset + bytes.length) rest) :
    ReadBack bufferSize path disk offset (bytes ++ rest)

variable {pathBytes} {disk disk' : DiskState Path} {path : Path} {file bytes data : List UInt8}
  {offset bufferSize n : ℕ}

/-- A read that completes returns as many bytes as its count says. -/
theorem Completes.length_slice (hn : Completes file offset bufferSize n) :
    (slice file offset n).length = n := by
  have havailable := hn.available
  rw [slice, List.length_take, List.length_drop]
  omega

/-- What a read returns, and that it changes no file. -/
theorem readFile_eq (hfile : disk.files path = some file) :
    readFile pathBytes bufferSize disk path offset (.ok ()) (.ok n) =
      (.ok (slice file offset n), disk.notify pathBytes .diskRead path) := by
  unfold readFile DiskState.openFile
  rw [hfile]
  simp only [Except.map, readInto_eq]

/-- Reading on gives the rest of the file, whatever counts the reads complete with. -/
theorem ReadBack.eq_drop (h : ReadBack pathBytes bufferSize path disk offset bytes)
    (hfile : disk.files path = some file) : bytes = file.drop offset := by
  induction h with
  | @done disk disk' file' offset n hfile' hn hread =>
    obtain rfl := Option.some.inj (hfile'.symm.trans hfile)
    rw [readFile_eq hfile] at hread
    have hslice : slice file' offset n = [] := Except.ok.inj (Prod.mk.inj hread).1
    have hzero : n = 0 := by
      rw [← hn.length_slice, hslice, List.length_nil]
    exact (List.drop_eq_nil_of_le (hn.progress hzero)).symm
  | @more disk disk' file' bytes rest offset n hfile' hn hread hne hrest ih =>
    obtain rfl := Option.some.inj (hfile'.symm.trans hfile)
    rw [readFile_eq hfile] at hread
    obtain ⟨hbytes, hdisk⟩ := Prod.mk.inj hread
    have hbytes : slice file' offset n = bytes := Except.ok.inj hbytes
    have hrest := ih (by rw [← hdisk]; exact hfile)
    have hlen : bytes.length = n := by
      rw [← hbytes, hn.length_slice]
    rw [hrest, hlen, ← hbytes, slice, ← List.drop_drop, List.take_append_drop]

/-- There is such a reading: it comes to the end of the file. -/
theorem exists_readBack (hbuffer : 1 ≤ bufferSize) (hfile : disk.files path = some file) :
    ∃ bytes, ReadBack pathBytes bufferSize path disk offset bytes := by
  -- Each read that returns bytes leaves fewer of them to read.
  induction h : file.length - offset using Nat.strongRecOn generalizing disk offset with
  | ind left ih =>
    by_cases hend : file.length ≤ offset
    · have hn : Completes file offset bufferSize 0 := ⟨Nat.zero_le _, Nat.zero_le _, fun _ => hend⟩
      exact ⟨[], .done hfile hn (readFile_eq hfile)⟩
    · have hn : Completes file offset bufferSize 1 :=
        ⟨hbuffer, by omega, fun h => absurd h Nat.one_ne_zero⟩
      have hlen := hn.length_slice
      have hnext : (disk.notify pathBytes .diskRead path).files path = some file := hfile
      obtain ⟨rest, hrest⟩ := ih (file.length - (offset + 1)) (by omega) hnext rfl
      refine ⟨slice file offset 1 ++ rest, .more hfile hn (readFile_eq hfile) ?_ ?_⟩
      · intro hnil
        rw [hnil] at hlen
        exact absurd hlen Nat.zero_ne_one
      · rw [hlen]
        exact hrest

end

/-! ## What a write that is acknowledged has stored -/

section
variable {file bytes data : List UInt8} {offset n : ℕ}

/-- The bytes that a write has stored are there, and those elsewhere that the file had are the
same. -/
theorem getElem?_pwrite {k : ℕ} (hk : k < file.length ∨ offset ≤ k) :
    (pwrite file offset bytes)[k]? =
      if offset ≤ k ∧ k < offset + bytes.length then bytes[k - offset]? else file[k]? := by
  unfold pwrite
  by_cases hnil : bytes = []
  · rw [if_pos hnil, if_neg]
    rw [hnil, List.length_nil]
    omega
  · have hpad : (file ++ List.replicate (offset - file.length) 0).length =
        file.length + (offset - file.length) := by
      rw [List.length_append, List.length_replicate]
    rw [if_neg hnil, getElem?_splice (by omega)]
    congr 1
    by_cases hlt : k < file.length
    · exact List.getElem?_append_left hlt
    · -- Nothing is past the zeros either.
      rw [List.getElem?_eq_none (by omega), List.getElem?_eq_none (by omega)]

/-- The file has all of the data exactly when it had those bytes that the write did not store. -/
theorem pwrite_stores_iff (hn : n ≤ data.length) :
    (∀ i < data.length, (pwrite file offset (data.take n))[offset + i]? = data[i]?) ↔
      ∀ i, n ≤ i → i < data.length → file[offset + i]? = data[i]? := by
  have hget : ∀ i, (pwrite file offset (data.take n))[offset + i]? =
      if i < n then data[i]? else file[offset + i]? := by
    intro i
    rw [getElem?_pwrite (Or.inr (Nat.le_add_right _ _)), List.length_take, Nat.min_eq_left hn,
      Nat.add_sub_cancel_left]
    by_cases hi : i < n
    · rw [if_pos (by omega), if_pos hi, List.getElem?_take, if_pos hi]
    · rw [if_neg (by omega), if_neg hi]
  constructor
  · intro h i hle hi
    have hbyte := h i hi
    rwa [hget, if_neg (Nat.not_lt.mpr hle)] at hbyte
  · intro h i hi
    rw [hget]
    by_cases hlt : i < n
    · rw [if_pos hlt]
    · rw [if_neg hlt, h i (Nat.le_of_not_lt hlt) hi]

end

section
variable {Path : Type} [DecidableEq Path] (pathBytes : Path → List UInt8)

/-- The data is in the file, where it is read back, and no other byte that the file had has
changed. -/
structure Persisted (prior file : List UInt8) (disk : DiskState Path) (path : Path) (offset : ℕ)
    (data : List UInt8) : Prop where
  /-- What the file contains. -/
  contents : disk.files path = some file
  /-- The bytes of the data are in it. -/
  stored : ∀ i < data.length, file[offset + i]? = data[i]?
  /-- The other bytes that the file had are the same. -/
  outside : ∀ k < prior.length, k < offset ∨ offset + data.length ≤ k → file[k]? = prior[k]?
  /-- Reading from the offset on comes to an end, and returns the data first. -/
  readBack : ∀ bufferSize, 1 ≤ bufferSize →
    (∃ bytes, ReadBack pathBytes bufferSize path disk offset bytes) ∧
      ∀ bytes, ReadBack pathBytes bufferSize path disk offset bytes → data <+: bytes

/-- When the write is acknowledged, its data is in the file. -/
def NoLostBytes (disk : DiskState Path) (path : Path) (offset : ℕ) (data : List UInt8)
    (opened : Except IoError Unit) (written : Except IoError (Fin (data.length + 1))) : Prop :=
  ∀ disk', writeFile pathBytes disk path offset data opened written = (.ok (), disk') →
    ∃ file, Persisted pathBytes ((disk.files path).getD []) file disk' path offset data

variable {pathBytes} {disk : DiskState Path} {path : Path} {offset : ℕ} {data : List UInt8}

/-- The data of a file is read back when the file has it. -/
theorem prefix_of_stored {file : List UInt8}
    (h : ∀ i < data.length, file[offset + i]? = data[i]?) : data <+: file.drop offset := by
  rw [List.prefix_iff_eq_take]
  apply List.ext_getElem?
  intro i
  rw [List.getElem?_take, List.getElem?_drop]
  by_cases hi : i < data.length
  · rw [if_pos hi, h i hi]
  · rw [if_neg hi, List.getElem?_eq_none (Nat.le_of_not_lt hi)]

/-- A write that is acknowledged loses no byte exactly when the kernel has stored all that the file
did not have already. -/
theorem writeFile_noLostBytes_iff (opened : Except IoError Unit)
    (written : Except IoError (Fin (data.length + 1))) :
    NoLostBytes pathBytes disk path offset data opened written ↔
      (∃ e, opened = .error e) ∨ (∃ e, written = .error e) ∨
        ∃ n, written = .ok n ∧ ∀ i : ℕ, n ≤ i → i < data.length →
          ((disk.files path).getD [])[offset + i]? = data[i]? := by
  unfold NoLostBytes writeFile
  -- A write that is not acknowledged promises nothing.
  cases opened with
  | error e =>
    constructor
    · intro _
      exact Or.inl ⟨e, rfl⟩
    · rintro - disk' ⟨⟩
  | ok opened =>
    cases written with
    | error e =>
      constructor
      · intro _
        exact Or.inr (Or.inl ⟨e, rfl⟩)
      · rintro - disk' ⟨⟩
    | ok n =>
      have hn : (n : ℕ) ≤ data.length := Nat.le_of_lt_succ n.isLt
      set prior := (disk.files path).getD []
      have hfile : ((disk.setFile path (pwrite prior offset (data.take n))).notify pathBytes
          .diskWrite path).files path = some (pwrite prior offset (data.take n)) :=
        Function.update_self _ _ _
      constructor
      · -- What is acknowledged is stored, so that the file had what the kernel left out.
        intro h
        obtain ⟨file, hpersisted⟩ := h _ rfl
        obtain rfl := Option.some.inj (hfile.symm.trans hpersisted.contents)
        exact Or.inr (Or.inr ⟨n, rfl, (pwrite_stores_iff hn).mp hpersisted.stored⟩)
      · rintro (⟨e, ⟨⟩⟩ | ⟨e, ⟨⟩⟩ | ⟨n', ⟨⟩, h⟩) disk' ⟨⟩
        have hstored := (pwrite_stores_iff hn).mpr h
        refine ⟨_, hfile, hstored, ?_, ?_⟩
        · -- No other byte is written.
          intro k hk hout
          have hlen : (data.take n).length ≤ data.length := List.length_take_le' _ _
          rw [getElem?_pwrite (Or.inl hk), if_neg (by omega)]
        · intro bufferSize hbuffer
          refine ⟨exists_readBack hbuffer hfile, fun bytes hread => ?_⟩
          rw [hread.eq_drop hfile]
          exact prefix_of_stored hstored

end

/-- The kernel stores one byte of two in an empty file: `write_file` returns `Ok`, and the second
byte is lost. -/
theorem writeFile_noLostBytes_fails : ¬ ∀ (disk : DiskState Unit) (offset : ℕ) (data : List UInt8)
    (opened : Except IoError Unit) (written : Except IoError (Fin (data.length + 1))),
    NoLostBytes (fun _ => []) disk () offset data opened written := by
  intro h
  obtain ⟨file, hpersisted⟩ := h ⟨fun _ => some [], []⟩ 0 [1, 2] (.ok ()) (.ok 1) _ rfl
  obtain rfl := Option.some.inj hpersisted.contents
  exact absurd (hpersisted.stored 1 (by decide)) (by decide)

end Elgate.Disk
