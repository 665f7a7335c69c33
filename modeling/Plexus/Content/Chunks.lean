import Plexus.Python.Collections

/-!
# Chunking a file by size

`extract_content.py` reads a file with `f.readlines()` and, when no sections are given, cuts the
lines into chunks with `chunk_by_size(lines, file_path, mime_type, existing_concepts,
max_lines)`. `main` forwards `max_lines` from the `max_chunk_lines` parameter without checking
it, so here it is any integer.

A file of at most `max_lines` lines is one chunk labelled `full_document`. A longer one is cut at
the starts `range(0, len(lines), max_lines)` into the batches `lines[i:i + max_lines]`, and every
batch whose stripped text is not empty becomes a chunk labelled with its 1-indexed line range.

## What holds

For `max_lines ≥ 1` the loop visits the starts `max_lines * k` (`chunkBySize_of_pos`), the
batches have at most `max_lines` lines and flatten back to the file (`flatten_map_batch`), and a
batch is emitted exactly when it holds a non-whitespace character (`batchChunk_mul`). So every
line with text lies in exactly one batch, and that batch is a chunk.

## What does not

The parameter is an integer, and the two branches guard differently. A step of `0` makes `range`
raise `ValueError` (`chunkBySize_eq_error_iff`); a negative one gives no start at all, so every
non-empty file loses every line (`chunkBySize_of_neg`); and the `full_document` branch has no
`if content:` guard, so a file of blank lines is one chunk with empty content
(`chunkBySize_of_le`).
-/

namespace Plexus

/-- A chunk record: `{"content", "file_path", "section_label", "mime_type",
"existing_concepts"}`. -/
structure Chunk where
  /-- The stripped text of the chunk's lines. -/
  content : Str
  /-- `file_path`, passed through. -/
  filePath : Str
  /-- `full_document`, or `lines a-b`. -/
  sectionLabel : Str
  /-- `mime_type`, passed through. -/
  mimeType : Str
  /-- `existing_concepts`, passed through. -/
  existingConcepts : List Str
  deriving DecidableEq, Repr

/-- `f"lines {a}-{b}"`. -/
def linesLabel (a b : ℤ) : Str := ("lines " ++ toString a ++ "-" ++ toString b).toList

section Chunking

variable (lines : List Str) (filePath mimeType : Str) (existingConcepts : List Str)

/-- The loop body at the start `i`: `content = "".join(lines[i:i + max_lines]).strip()`, made a
chunk `if content:`. -/
def batchChunk (maxLines i : ℤ) : Option Chunk :=
  let content := strStrip (pySlice lines i (i + maxLines)).flatten
  if content.isEmpty then none
  else some ⟨content, filePath, linesLabel (i + 1) (min (i + maxLines) lines.length), mimeType,
    existingConcepts⟩

/-- `chunk_by_size(lines, file_path, mime_type, existing_concepts, max_lines)`. -/
def chunkBySize (maxLines : ℤ) : Except ValueError (List Chunk) :=
  if (lines.length : ℤ) ≤ maxLines then
    .ok [⟨strStrip lines.flatten, filePath, "full_document".toList, mimeType, existingConcepts⟩]
  else
    (pyRange 0 lines.length maxLines).map fun starts ↦
      starts.filterMap (batchChunk lines filePath mimeType existingConcepts maxLines)

/-! ## The three branches -/

/-- **A short file.** One chunk of the whole text, whatever its content, empty included. -/
theorem chunkBySize_of_le {maxLines : ℤ} (h : (lines.length : ℤ) ≤ maxLines) :
    chunkBySize lines filePath mimeType existingConcepts maxLines
      = .ok [⟨strStrip lines.flatten, filePath, "full_document".toList, mimeType,
          existingConcepts⟩] :=
  if_pos h

/-- **Raising.** `chunk_by_size` raises exactly when the lines are not empty and `max_lines = 0`:
`range` refuses a zero step. -/
theorem chunkBySize_eq_error_iff {maxLines : ℤ} {e : ValueError} :
    chunkBySize lines filePath mimeType existingConcepts maxLines = .error e ↔
      lines ≠ [] ∧ maxLines = 0 ∧ e = ⟨"range() arg 3 must not be zero"⟩ := by
  unfold chunkBySize
  by_cases hle : (lines.length : ℤ) ≤ maxLines
  · simp only [if_pos hle, reduceCtorEq, false_iff, not_and]
    intro hne h0
    have := List.length_pos.mpr hne
    omega
  · rw [if_neg hle, pyRange]
    split_ifs with h0
    · have hne : lines ≠ [] := fun h ↦ hle (by simp [h, h0])
      simp [Except.map, h0, hne, eq_comm]
    · simp [Except.map, h0]

/-- **A negative step.** A file of at least one line gives no chunk at all. -/
theorem chunkBySize_of_neg {maxLines : ℤ} (hm : maxLines < 0) (hne : lines ≠ []) :
    chunkBySize lines filePath mimeType existingConcepts maxLines = .ok [] := by
  have hlen := List.length_pos.mpr hne
  rw [chunkBySize, if_neg (by omega), pyRange_of_neg _ hm]
  rfl

/-! ## Batches -/

/-- The `k`-th batch for `max_lines = m`: `lines[m * k : m * k + m]`. -/
def batch (m k : ℕ) : List Str := (lines.drop (m * k)).take m

theorem length_batch_le (m k : ℕ) : (batch lines m k).length ≤ m :=
  List.length_take_le _ _

/-- The first `c` batches are the first `m * c` lines. -/
theorem flatten_map_batch_range (m c : ℕ) :
    ((List.range c).map (batch lines m)).flatten = lines.take (m * c) := by
  induction c with
  | zero => simp
  | succ c ih =>
    rw [List.range_succ, List.map_append, List.flatten_append, ih, Nat.mul_succ, List.take_add]
    simp [batch]

/-- **The batches partition the file.** For `m ≥ 1` the batches of the loop, in order, flatten
back to the lines. -/
theorem flatten_map_batch {m : ℕ} (hm : 0 < m) :
    ((List.range ((lines.length - 1) / m + 1)).map (batch lines m)).flatten = lines := by
  rw [flatten_map_batch_range, List.take_of_length_le]
  have := Nat.lt_mul_div_succ (lines.length - 1) hm
  omega

/-- **The loop body at a batch start.** The batch `k` is a chunk exactly when it holds a
non-whitespace character, and the chunk is labelled with its 1-indexed line range. -/
theorem batchChunk_mul (m k : ℕ) :
    batchChunk lines filePath mimeType existingConcepts m ((m * k : ℕ) : ℤ)
      = if ∀ c ∈ (batch lines m k).flatten, isSpace c then none
        else some ⟨strStrip (batch lines m k).flatten, filePath,
          linesLabel ((m * k + 1 : ℕ) : ℤ) ((min (m * k + m) lines.length : ℕ) : ℤ), mimeType,
          existingConcepts⟩ := by
  simp only [batchChunk, pySlice_of_nonneg, ← strStrip_eq_nil_iff, List.isEmpty_iff, batch]
  split_ifs <;> simp only [Option.some.injEq, Chunk.mk.injEq, true_and, and_true]
  congr 1
  omega

/-- **A long file.** For `1 ≤ m < len(lines)` the loop visits the starts `m * k` for
`k ≤ (len(lines) - 1) / m`, in order. -/
theorem chunkBySize_of_pos {m : ℕ} (hm : 0 < m) (hlt : m < lines.length) :
    chunkBySize lines filePath mimeType existingConcepts m
      = .ok ((List.range ((lines.length - 1) / m + 1)).filterMap fun k ↦
          batchChunk lines filePath mimeType existingConcepts m ((m * k : ℕ) : ℤ)) := by
  rw [chunkBySize, if_neg (by omega), pyRange_of_pos _ hm, if_neg (by omega)]
  simp only [Except.map, List.filterMap_map]
  rfl

end Chunking

/-- A file of one blank line is one chunk with empty content; `max_lines = 0` raises; and
`max_lines = -1` drops both lines of a two-line file. -/
theorem chunkBySize_failures (filePath mimeType : Str) (existingConcepts : List Str) :
    chunkBySize ["\n".toList] filePath mimeType existingConcepts 100
        = .ok [⟨[], filePath, "full_document".toList, mimeType, existingConcepts⟩] ∧
      chunkBySize ["a\n".toList] filePath mimeType existingConcepts 0
        = .error ⟨"range() arg 3 must not be zero"⟩ ∧
      chunkBySize ["a\n".toList, "b\n".toList] filePath mimeType existingConcepts (-1) = .ok [] :=
  ⟨chunkBySize_of_le _ _ _ _ (by decide),
    (chunkBySize_eq_error_iff _ _ _ _).mpr ⟨List.cons_ne_nil _ _, rfl, rfl⟩,
    chunkBySize_of_neg _ _ _ _ (by decide) (List.cons_ne_nil _ _)⟩

end Plexus
