import Elgate.Arch.CpuInfo
import Elgate.Foundation.Runs
import Elgate.Foundation.Text

/-!
# CPU lists

`CpuInfo::parse_cpu_list` of `src/arch/cpu_info.rs` reads text like `0-2,4,6-8`, in which the kernel
prints a set of CPUs. A `str` is the list of its characters. `Listed` says which texts spell a list
of numbers and ranges, and `parseCpuList_listed` that such a text is read as the cores of its parts
in order; the text that the kernel prints for a set is read as the set.
-/

namespace Elgate.Arch

open Runs Text

/-- One turn of the loop of `parse_cpu_list`: the cores that a part of the text adds. -/
def parsePart (part : List Char) : List ℕ :=
  if '-' ∈ part then
    match part.splitOn '-' with
    | [first, last] =>
      match parseUsize (trim first), parseUsize (trim last) with
      | some start, some last => List.range' start (last + 1 - start)
      | _, _ => []
    | _ => []
  else
    match parseUsize (trim part) with
    | some core => [core]
    | none => []

/-- `CpuInfo::parse_cpu_list`. -/
def parseCpuList (cpulist : List Char) : List ℕ := (cpulist.splitOn ',').flatMap parsePart

/-- A part of a CPU list. -/
inductive Part
  /-- One core. -/
  | core (n : ℕ)
  /-- The cores from the first to the last. -/
  | range (first last : ℕ)
  deriving DecidableEq, Repr

namespace Part

/-- The cores of a part, in order. -/
def cores : Part → List ℕ
  | core n => [n]
  | range first last => run (first, last)

/-- The numbers are 64-bit numbers, and a range ascends. -/
def Valid : Part → Prop
  | core n => n < 2^64
  | range first last => first ≤ last ∧ last < 2^64

/-- The text spells the part: a number, or two numbers with a dash between them, each with any
whitespace around it. -/
def Spells : Part → List Char → Prop
  | core n, s => Padded n s
  | range first last, s =>
    ∃ text text', Padded first text ∧ Padded last text' ∧ s = text ++ '-' :: text'

/-- The part that the kernel prints for a run. -/
def ofRun (r : ℕ × ℕ) : Part := if r.1 = r.2 then core r.1 else range r.1 r.2

end Part

/-- The text spells the parts, with commas between them, and whitespace may follow. -/
def Listed (parts : List Part) (text : List Char) : Prop :=
  ∃ specs trailing, List.Forall₂ Part.Spells parts specs ∧
    (∀ c ∈ trailing, isWhitespace c = true) ∧ text = [','].intercalate specs ++ trailing

/-! ## One part -/

/-- A padded number has neither a dash nor a comma. -/
theorem Padded.not_mem {n : ℕ} {s : List Char} (h : Padded n s) : '-' ∉ s ∧ ',' ∉ s := by
  constructor
  · intro hc
    exact (h.mem hc).elim (by decide) (by decide)
  · intro hc
    exact (h.mem hc).elim (by decide) (by decide)

namespace Part

variable {part : Part} {s : List Char}

/-- What spells a part has no comma. -/
theorem Spells.comma_not_mem (h : part.Spells s) : ',' ∉ s := by
  cases part with
  | core n => exact (Padded.not_mem h).2
  | range first last =>
    obtain ⟨text, text', h1, h2, rfl⟩ := h
    simp [(Padded.not_mem h1).2, (Padded.not_mem h2).2]

/-- Whitespace may follow it. -/
theorem Spells.append {ws : List Char} (h : part.Spells s)
    (hws : ∀ c ∈ ws, isWhitespace c = true) : part.Spells (s ++ ws) := by
  cases part with
  | core n => exact Padded.append h hws
  | range first last =>
    obtain ⟨text, text', h1, h2, rfl⟩ := h
    exact ⟨text, text' ++ ws, h1, h2.append hws, by simp⟩

/-- It is read as the part. -/
theorem Spells.parsePart_eq (h : part.Spells s) (hvalid : part.Valid) :
    parsePart s = part.cores := by
  unfold parsePart
  cases part with
  | core n =>
    rw [if_neg (Padded.not_mem h).1, Padded.parseUsize_trim h hvalid]
    rfl
  | range first last =>
    obtain ⟨text, text', h1, h2, rfl⟩ := h
    obtain ⟨hle, hlt⟩ := hvalid
    -- Neither number has a dash, so there are two pieces.
    have hsplit : (text ++ '-' :: text').splitOn '-' = [text, text'] := by
      rw [List.splitOn_append_cons_self_of_not_mem (Padded.not_mem h1).1,
        List.splitOn_eq_singleton (Padded.not_mem h2).1]
    rw [if_pos (by simp), hsplit]
    dsimp only
    rw [h1.parseUsize_trim (Nat.lt_of_le_of_lt hle hlt), h2.parseUsize_trim hlt]
    rfl

/-- The kernel prints a run as a part with its cores. -/
theorem cores_ofRun (r : ℕ × ℕ) : (ofRun r).cores = run r := by
  obtain ⟨first, last⟩ := r
  unfold ofRun
  split
  · rename_i heq
    obtain rfl : first = last := heq
    exact (run_self first).symm
  · rfl

/-- It is valid when the run is. -/
theorem valid_ofRun {r : ℕ × ℕ} (hle : r.1 ≤ r.2) (hlt : r.2 < 2^64) : (ofRun r).Valid := by
  unfold ofRun
  split
  · exact Nat.lt_of_le_of_lt hle hlt
  · exact ⟨hle, hlt⟩

end Part

/-! ## The whole text -/

/-- What follows the last part may be counted to it. -/
theorem exists_spells_trailing {parts : List Part} {specs : List (List Char)}
    (h : List.Forall₂ Part.Spells parts specs) (hne : parts ≠ []) {trailing : List Char}
    (hws : ∀ c ∈ trailing, isWhitespace c = true) :
    ∃ specs', List.Forall₂ Part.Spells parts specs' ∧
      [','].intercalate specs ++ trailing = [','].intercalate specs' := by
  induction h with
  | nil => exact absurd rfl hne
  | @cons part s parts specs hs hrest ih =>
    cases hrest with
    -- The last part takes what follows it.
    | nil => exact ⟨[s ++ trailing], .cons (hs.append hws) .nil, by simp⟩
    | cons hs' hrest' =>
      obtain ⟨specs', hspecs, heq⟩ := ih (List.cons_ne_nil _ _)
      have hne' : specs' ≠ [] := by
        rintro rfl
        cases hspecs
      refine ⟨s :: specs', .cons hs hspecs, ?_⟩
      rw [List.intercalate_cons_cons, List.append_assoc, heq, List.intercalate_cons_of_ne_nil hne']

/-- No text of a part has a comma. -/
theorem comma_not_mem {parts : List Part} {specs : List (List Char)}
    (h : List.Forall₂ Part.Spells parts specs) : ∀ s ∈ specs, ',' ∉ s := by
  induction h with
  | nil => exact fun s hs => absurd hs List.not_mem_nil
  | cons hs _ ih => exact List.forall_mem_cons.mpr ⟨hs.comma_not_mem, ih⟩

/-- Texts of parts are read as their cores, in order. -/
theorem flatMap_parsePart {parts : List Part} {specs : List (List Char)}
    (h : List.Forall₂ Part.Spells parts specs) (hvalid : ∀ part ∈ parts, part.Valid) :
    specs.flatMap parsePart = parts.flatMap Part.cores := by
  induction h with
  | nil => rfl
  | cons hs _ ih =>
    obtain ⟨hpart, hparts⟩ := List.forall_mem_cons.mp hvalid
    rw [List.flatMap_cons, List.flatMap_cons, hs.parsePart_eq hpart, ih hparts]

/-- A text is read as the cores of its parts, in order. -/
theorem parseCpuList_listed {parts : List Part} {text : List Char}
    (hvalid : ∀ part ∈ parts, part.Valid) (h : Listed parts text) :
    parseCpuList text = parts.flatMap Part.cores := by
  obtain ⟨specs, trailing, hspecs, hws, rfl⟩ := h
  unfold parseCpuList
  by_cases hne : parts = []
  · -- No part: the text is whitespace, which is no number.
    subst hne
    cases hspecs
    have hcomma : ',' ∉ trailing := fun hc => absurd (hws ',' hc) (by decide)
    have hdash : '-' ∉ trailing := fun hc => absurd (hws '-' hc) (by decide)
    rw [List.intercalate_nil, List.nil_append, List.splitOn_eq_singleton hcomma,
      List.flatMap_singleton, parsePart, if_neg hdash, parseUsize_trim_whitespace hws]
    rfl
  · obtain ⟨specs', hspecs', heq⟩ := exists_spells_trailing hspecs hne hws
    have hne' : specs' ≠ [] := by
      rintro rfl
      cases hspecs'
      exact hne rfl
    rw [heq, List.splitOn_intercalate ',' (comma_not_mem hspecs') hne',
      flatMap_parsePart hspecs' hvalid]

/-! ## The text of a set -/

/-- What the kernel prints for a part. -/
def Part.render : Part → List Char
  | core n => Nat.toDigits 10 n
  | range first last => Nat.toDigits 10 first ++ '-' :: Nat.toDigits 10 last

/-- What the kernel prints for a set of CPUs. -/
def renderCpuList (S : Finset ℕ) : List Char :=
  [','].intercalate ((runs (S.sort (· ≤ ·))).map fun r => (Part.ofRun r).render) ++ ['\n']

/-- A printed part spells it. -/
theorem Part.spells_render (part : Part) : part.Spells part.render := by
  cases part with
  | core n => exact (numeral_toDigits n).padded
  | range first last =>
    exact ⟨_, _, (numeral_toDigits first).padded, (numeral_toDigits last).padded, rfl⟩

/-- The printed text spells the maximal runs of the set. -/
theorem listed_renderCpuList (S : Finset ℕ) :
    Listed ((runs (S.sort (· ≤ ·))).map Part.ofRun) (renderCpuList S) := by
  refine ⟨_, ['\n'], ?_, List.forall_mem_singleton.mpr rfl, rfl⟩
  rw [List.forall₂_map_left_iff, List.forall₂_map_right_iff, List.forall₂_same]
  exact fun r _ => Part.spells_render _

/-- The parts of maximal runs are read as the set, in ascending order. -/
theorem parseCpuList_canonical {S : Finset ℕ} {rs : List (ℕ × ℕ)} {text : List Char}
    (hlt : ∀ n ∈ S, n < 2^64) (hrs : Canonical S rs) (h : Listed (rs.map Part.ofRun) text) :
    parseCpuList text = S.sort (· ≤ ·) := by
  have hvalid : ∀ part ∈ rs.map Part.ofRun, part.Valid := by
    intro part hpart
    obtain ⟨r, hr, rfl⟩ := List.mem_map.mp hpart
    have hle := hrs.le r hr
    exact Part.valid_ofRun hle (hlt r.2 ((hrs.mem r.2).mpr ⟨r, hr, hle, le_rfl⟩))
  rw [parseCpuList_listed hvalid h, List.flatMap_map, ← hrs.flatMap_run]
  congr 1
  funext r
  exact Part.cores_ofRun r

/-- What the kernel prints for a set of CPUs, with any spaces around its numbers, is read as the set
in ascending order. In general, a text of numbers and ascending ranges is read as their cores, in
order. -/
theorem parseCpuList_inverts :
    (∀ S : Finset ℕ, (∀ n ∈ S, n < 2^64) → parseCpuList (renderCpuList S) = S.sort (· ≤ ·) ∧
      ∀ rs text, Canonical S rs → Listed (rs.map Part.ofRun) text →
        parseCpuList text = S.sort (· ≤ ·)) ∧
    ∀ parts text, (∀ part ∈ parts, part.Valid) → Listed parts text →
      parseCpuList text = parts.flatMap Part.cores := by
  refine ⟨fun S hlt => ⟨?_, fun rs text hrs htext => parseCpuList_canonical hlt hrs htext⟩,
    fun parts text hvalid htext => parseCpuList_listed hvalid htext⟩
  exact parseCpuList_canonical hlt (canonical_runs S) (listed_renderCpuList S)

/-- The CPUs of `0-2, 4 ,6-8` and a newline. -/
theorem parseCpuList_inverts_spaced :
    parseCpuList "0-2, 4 ,6-8\n".toList = ({0, 1, 2, 4, 6, 7, 8} : Finset ℕ).sort (· ≤ ·) := by
  have hnumeral : ∀ n < 10, Numeral n [Nat.digitChar n] := by
    intro n hn
    rw [← Nat.toDigits_of_lt_base hn]
    exact numeral_toDigits n
  have hrs : Canonical {0, 1, 2, 4, 6, 7, 8} [(0, 2), (4, 4), (6, 8)] := by
    refine ⟨by decide, by decide, fun n => ?_⟩
    simp
    omega
  refine ((parseCpuList_inverts.1 {0, 1, 2, 4, 6, 7, 8} (by decide)).2 _ _ hrs) ?_
  refine ⟨["0-2".toList, " 4 ".toList, "6-8".toList], ['\n'], ?_,
    List.forall_mem_singleton.mpr rfl, by decide⟩
  refine .cons ?_ (.cons ?_ (.cons ?_ .nil))
  · exact ⟨['0'], ['2'], (hnumeral 0 (by decide)).padded, (hnumeral 2 (by decide)).padded, rfl⟩
  · exact ⟨[' '], ['4'], [' '], List.forall_mem_singleton.mpr rfl, hnumeral 4 (by decide),
      List.forall_mem_singleton.mpr rfl, rfl⟩
  · exact ⟨['6'], ['8'], (hnumeral 6 (by decide)).padded, (hnumeral 8 (by decide)).padded, rfl⟩

end Elgate.Arch
