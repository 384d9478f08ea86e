import Mathlib.Algebra.Group.Nat.Defs
import Mathlib.Data.List.Basic

/-!
# Bytes of a memory or a file

A memory is a list of bytes. A number is stored as the bytes of a word, in the byte order of the
machine, and reads back as itself when it fits in the word (`ByteOrder.decode_encode`). `splice`
stores bytes at an offset: it has an effect only there (`getElem?_splice`), so a slice that the
bytes do not overlap is left as it was (`slice_splice_of_disjoint`), and the slice that they make up
reads back (`slice_splice`).
-/

namespace Elgate.Bytes

/-! ## Words -/

/-- The low `n` bytes of a number, least significant first. -/
def leBytes : ℕ → ℕ → List UInt8
  | 0, _ => []
  | n + 1, x => UInt8.ofNat x :: leBytes n (x / 256)

/-- The number that bytes spell, least significant first. -/
def ofLeBytes : List UInt8 → ℕ
  | [] => 0
  | b :: bytes => b.toNat + 256 * ofLeBytes bytes

@[simp]
theorem length_leBytes (n x : ℕ) : (leBytes n x).length = n := by
  induction n generalizing x with
  | zero => rfl
  | succ n ih => rw [leBytes, List.length_cons, ih]

/-- Bytes of a number spell the number, reduced to their width. -/
theorem ofLeBytes_leBytes (n x : ℕ) : ofLeBytes (leBytes n x) = x % 256 ^ n := by
  induction n generalizing x with
  | zero => rw [Nat.pow_zero, Nat.mod_one]; rfl
  | succ n ih =>
    have hbyte : (UInt8.ofNat x).toNat = x % 256 := UInt8.toNat_ofNat'
    calc ofLeBytes (leBytes (n + 1) x)
        = x % 256 + 256 * (x / 256 % 256 ^ n) := by rw [leBytes, ofLeBytes, hbyte, ih]
      _ = x % 256 ^ (n + 1) := by rw [Nat.pow_succ', Nat.mod_mul]

/-- The number that bytes spell has those bytes. -/
theorem leBytes_ofLeBytes (bytes : List UInt8) :
    leBytes bytes.length (ofLeBytes bytes) = bytes := by
  induction bytes with
  | nil => rfl
  | cons b bytes ih =>
    have hb : b.toNat < 256 := b.toNat_lt
    have hlow : UInt8.ofNat (b.toNat + 256 * ofLeBytes bytes) = b := by
      apply UInt8.toNat_inj.mp
      rw [UInt8.toNat_ofNat']
      omega
    have hrest : (b.toNat + 256 * ofLeBytes bytes) / 256 = ofLeBytes bytes := by omega
    rw [List.length_cons, ofLeBytes, leBytes, hlow, hrest, ih]

/-- The order in which a machine stores the bytes of a word. -/
inductive ByteOrder
  /-- Least significant first. -/
  | little
  /-- Most significant first. -/
  | big
  deriving DecidableEq, Repr

/-- The `n` bytes of a word. -/
def ByteOrder.encode : ByteOrder → ℕ → ℕ → List UInt8
  | little, n, x => leBytes n x
  | big, n, x => (leBytes n x).reverse

/-- The number in a word. -/
def ByteOrder.decode : ByteOrder → List UInt8 → ℕ
  | little, bytes => ofLeBytes bytes
  | big, bytes => ofLeBytes bytes.reverse

@[simp]
theorem ByteOrder.length_encode (order : ByteOrder) (n x : ℕ) :
    (order.encode n x).length = n := by
  cases order with
  | little => exact length_leBytes n x
  | big => rw [encode, List.length_reverse, length_leBytes]

/-- A number that fits in the word reads back. -/
theorem ByteOrder.decode_encode (order : ByteOrder) {n x : ℕ} (h : x < 256 ^ n) :
    order.decode (order.encode n x) = x := by
  have hle : ofLeBytes (leBytes n x) = x := by
    rw [ofLeBytes_leBytes, Nat.mod_eq_of_lt h]
  cases order with
  | little => exact hle
  | big => rw [encode, decode, List.reverse_reverse, hle]

/-- The number in a word fits in the word. -/
theorem ByteOrder.decode_lt (order : ByteOrder) (bytes : List UInt8) :
    order.decode bytes < 256 ^ bytes.length := by
  have hle : ∀ bytes : List UInt8, ofLeBytes bytes < 256 ^ bytes.length := by
    intro bytes
    calc ofLeBytes bytes = ofLeBytes (leBytes bytes.length (ofLeBytes bytes)) := by
          rw [leBytes_ofLeBytes]
      _ = ofLeBytes bytes % 256 ^ bytes.length := ofLeBytes_leBytes _ _
      _ < 256 ^ bytes.length := Nat.mod_lt _ (Nat.pow_pos (by decide))
  cases order with
  | little => exact hle bytes
  | big =>
    have hreverse := hle bytes.reverse
    rwa [List.length_reverse] at hreverse

/-- The number in a word has the bytes of the word. -/
theorem ByteOrder.encode_decode (order : ByteOrder) (bytes : List UInt8) :
    order.encode bytes.length (order.decode bytes) = bytes := by
  cases order with
  | little => exact leBytes_ofLeBytes bytes
  | big =>
    have hreverse := leBytes_ofLeBytes bytes.reverse
    rw [List.length_reverse] at hreverse
    rw [encode, decode, hreverse, List.reverse_reverse]

/-! ## Slices -/

section
variable {α : Type} {l l' new : List α} {off off' len : ℕ}

/-- `len` elements from an offset on. -/
def slice (l : List α) (off len : ℕ) : List α := (l.drop off).take len

/-- The list after new elements are stored at an offset. -/
def splice (l : List α) (off : ℕ) (new : List α) : List α :=
  l.take off ++ new ++ l.drop (off + new.length)

/-- An element of a slice. -/
theorem getElem?_slice (l : List α) (off len i : ℕ) :
    (slice l off len)[i]? = if i < len then l[off + i]? else none := by
  unfold slice
  rw [List.getElem?_take, List.getElem?_drop]

/-- A slice within the list has all its elements. -/
theorem length_slice (h : off + len ≤ l.length) : (slice l off len).length = len := by
  rw [slice, List.length_take, List.length_drop]
  omega

/-- A slice depends on its own elements only. -/
theorem slice_congr (h : ∀ i < len, l[off + i]? = l'[off + i]?) :
    slice l off len = slice l' off len := by
  apply List.ext_getElem?
  intro i
  rw [getElem?_slice, getElem?_slice]
  by_cases hi : i < len
  · rw [if_pos hi, if_pos hi, h i hi]
  · rw [if_neg hi, if_neg hi]

/-- What a splice changes. -/
theorem getElem?_splice (h : off ≤ l.length) (i : ℕ) :
    (splice l off new)[i]? = if off ≤ i ∧ i < off + new.length then new[i - off]? else l[i]? := by
  unfold splice
  have htake : (l.take off).length = off := by rw [List.length_take, Nat.min_eq_left h]
  rw [List.append_assoc, List.getElem?_append, htake]
  by_cases hlt : i < off
  · -- Before the new elements.
    rw [if_pos hlt, if_neg (by omega), List.getElem?_take, if_pos hlt]
  · rw [if_neg hlt, List.getElem?_append]
    by_cases hnew : i - off < new.length
    · -- Among them.
      rw [if_pos hnew, if_pos (by omega)]
    · -- After them.
      rw [if_neg hnew, if_neg (by omega), List.getElem?_drop]
      congr 1
      omega

/-- A splice within the list keeps its length. -/
theorem length_splice (h : off + new.length ≤ l.length) :
    (splice l off new).length = l.length := by
  rw [splice, List.length_append, List.length_append, List.length_take, List.length_drop]
  omega

/-- New elements read back. -/
theorem slice_splice (h : off ≤ l.length) : slice (splice l off new) off new.length = new := by
  apply List.ext_getElem?
  intro i
  rw [getElem?_slice, getElem?_splice h]
  by_cases hi : i < new.length
  · rw [if_pos hi, if_pos (by omega), Nat.add_sub_cancel_left]
  · rw [if_neg hi, List.getElem?_eq_none (by omega)]

/-- A slice next to the new elements is left as it was. -/
theorem slice_splice_of_disjoint (h : off ≤ l.length)
    (hdisj : off' + len ≤ off ∨ off + new.length ≤ off') :
    slice (splice l off new) off' len = slice l off' len := by
  apply slice_congr
  intro i hi
  rw [getElem?_splice h, if_neg (by omega)]

/-- A splice within a slice. -/
theorem slice_splice_within (h : off + off' + new.length ≤ l.length)
    (hlen : off' + new.length ≤ len) :
    slice (splice l (off + off') new) off len = splice (slice l off len) off' new := by
  have hin : off' ≤ (slice l off len).length := by
    rw [slice, List.length_take, List.length_drop]
    omega
  apply List.ext_getElem?
  intro i
  rw [getElem?_slice, getElem?_splice (by omega), getElem?_splice hin, getElem?_slice]
  by_cases hi : i < len
  · rw [if_pos hi, if_pos hi]
    by_cases hnew : off' ≤ i ∧ i < off' + new.length
    · rw [if_pos hnew, if_pos (by omega), Nat.add_sub_add_left]
    · rw [if_neg hnew, if_neg (by omega)]
  · rw [if_neg hi, if_neg (by omega), if_neg hi]

/-- A splice before the elements that are kept. -/
theorem drop_splice_of_le (h : off ≤ l.length) {n : ℕ} (hn : off + new.length ≤ n) :
    (splice l off new).drop n = l.drop n := by
  apply List.ext_getElem?
  intro i
  rw [List.getElem?_drop, List.getElem?_drop, getElem?_splice h, if_neg (by omega)]

/-- The elements from a splice on. -/
theorem drop_splice (h : off ≤ l.length) :
    (splice l off new).drop off = new ++ (l.drop off).drop new.length := by
  have htake : (l.take off).length = off := by rw [List.length_take, Nat.min_eq_left h]
  rw [splice, List.append_assoc, List.drop_left' htake, List.drop_drop]

end

/-- What a caller takes from a zeroed buffer, after a read that has stored these bytes in it. -/
def readInto (bufferSize : ℕ) (bytes : List UInt8) : List UInt8 :=
  (splice (List.replicate bufferSize 0) 0 bytes).take bytes.length

/-- It takes those bytes. -/
theorem readInto_eq (bufferSize : ℕ) (bytes : List UInt8) : readInto bufferSize bytes = bytes := by
  rw [readInto, splice, List.take_zero, List.nil_append, List.take_left' rfl]

end Elgate.Bytes
