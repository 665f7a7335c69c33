import Plexus.Content.Chunks

/-!
# Chunking a file by sections

When the request carries `sections`, `main` cuts the lines with `chunk_by_sections(lines,
sections, file_path, mime_type, existing_concepts)`. A section is a dict with an optional
`label`, an optional 1-indexed `start_line` (default `1`) and an optional `end_line` (default
`len(lines)`). It becomes the chunk `"".join(lines[start:end]).strip()`, with
`start = max(0, start_line - 1)`, when that text is not empty, labelled with its `label` or with
`f"lines {start+1}-{end}"`. The bounds are Python slice bounds: `start` is clamped at `0`, but a
negative `end_line` counts from the end of the file.

## What holds

Nothing checks that sections are ordered or disjoint. When they tile the file, one beginning
where the one before it ended, from the first line to the last, no text is lost or repeated: the
chunks hold the non-whitespace characters of the file in order (`chunkBySections_text_of_tiles`).

## The two chunkers

On a file longer than `max_lines ≥ 1`, `chunk_by_size` is `chunk_by_sections` on the unlabelled
sections `lines m*k+1 .. min(m*k+m, len)`, and these tile the file
(`chunkBySize_eq_chunkBySections`).
-/

namespace Plexus

/-- A section record; a missing key is `none`. -/
structure Section where
  /-- `section.get("label")`. -/
  label : Option Str
  /-- `section.get("start_line")`, 1-indexed. -/
  startLine : Option ℤ
  /-- `section.get("end_line")`, 1-indexed and inclusive. -/
  endLine : Option ℤ
  deriving DecidableEq, Repr

/-! ## Stripping -/

theorem filter_dropWhile {α : Type} (p : α → Bool) (l : List α) :
    (l.dropWhile p).filter (fun c ↦ !p c) = l.filter fun c ↦ !p c := by
  induction l with
  | nil => rfl
  | cons a l ih => by_cases h : p a <;> simp [List.dropWhile_cons, h, ih]

/-- Stripping drops whitespace only. -/
theorem filter_strStrip (s : Str) :
    (strStrip s).filter (fun c ↦ !isSpace c) = s.filter fun c ↦ !isSpace c := by
  rw [strStrip, List.filter_reverse, filter_dropWhile, List.filter_reverse, List.reverse_reverse,
    filter_dropWhile]

section Chunking

variable (lines : List Str) (filePath mimeType : Str) (existingConcepts : List Str)

/-- `start = max(0, section.get("start_line", 1) - 1)`. -/
def sectionStart (sec : Section) : ℤ := max 0 (sec.startLine.getD 1 - 1)

/-- `end = section.get("end_line", len(lines))`. -/
def sectionEnd (sec : Section) : ℤ := sec.endLine.getD lines.length

/-- The loop body of `chunk_by_sections` for one section. -/
def sectionChunk (sec : Section) : Option Chunk :=
  let content := strStrip (pySlice lines (sectionStart sec) (sectionEnd lines sec)).flatten
  if content.isEmpty then none
  else some ⟨content, filePath,
    sec.label.getD (linesLabel (sectionStart sec + 1) (sectionEnd lines sec)), mimeType,
    existingConcepts⟩

/-- `chunk_by_sections(lines, sections, file_path, mime_type, existing_concepts)`. -/
def chunkBySections (sections : List Section) : List Chunk :=
  sections.filterMap (sectionChunk lines filePath mimeType existingConcepts)

/-- A section is a chunk exactly when its lines hold a non-whitespace character. -/
theorem sectionChunk_eq (sec : Section) :
    sectionChunk lines filePath mimeType existingConcepts sec
      = if ∀ c ∈ (pySlice lines (sectionStart sec) (sectionEnd lines sec)).flatten, isSpace c
        then none
        else some ⟨strStrip (pySlice lines (sectionStart sec) (sectionEnd lines sec)).flatten,
          filePath, sec.label.getD (linesLabel (sectionStart sec + 1) (sectionEnd lines sec)),
          mimeType, existingConcepts⟩ := by
  simp only [sectionChunk, ← strStrip_eq_nil_iff, List.isEmpty_iff]

/-- The empty section is the whole file. -/
example : chunkBySections ["a\n".toList, "b\n".toList] "f".toList "text/plain".toList []
    [⟨none, none, none⟩] = [⟨"a\nb".toList, "f".toList, "lines 1-2".toList,
      "text/plain".toList, []⟩] := by
  decide

/-! ## Sections that tile the file -/

/-- Sections that cover the lines from the 0-indexed line `i` to the end, each beginning where
the one before it ended. -/
inductive Tiles : ℕ → List Section → Prop
  | nil : Tiles lines.length []
  | cons {i j : ℕ} {sec : Section} {secs : List Section} :
      sectionStart sec = i → sectionEnd lines sec = j → i ≤ j → Tiles j secs →
        Tiles i (sec :: secs)

/-- The non-whitespace text of one section's chunk, if any, is that of its lines. -/
theorem filter_sectionChunk (sec : Section) :
    (((sectionChunk lines filePath mimeType existingConcepts sec).toList.map Chunk.content).flatten
        ).filter (fun c ↦ !isSpace c)
      = (pySlice lines (sectionStart sec) (sectionEnd lines sec)).flatten.filter
          fun c ↦ !isSpace c := by
  rw [sectionChunk_eq]
  split_ifs with hsp
  · rw [Option.toList_none, List.map_nil, List.flatten_nil, List.filter_nil, eq_comm,
      List.filter_eq_nil_iff]
    exact fun c hc ↦ by simpa using hsp c hc
  · simp [filter_strStrip]

theorem chunkBySections_text_of_tiles_from {i : ℕ} {sections : List Section}
    (h : Tiles lines i sections) :
    ((chunkBySections lines filePath mimeType existingConcepts sections).map
        Chunk.content).flatten.filter (fun c ↦ !isSpace c)
      = (lines.drop i).flatten.filter fun c ↦ !isSpace c := by
  induction h with
  | nil => simp [chunkBySections]
  | @cons i j sec secs hi hj hij _ ih =>
    have hfm : chunkBySections lines filePath mimeType existingConcepts (sec :: secs)
        = (sectionChunk lines filePath mimeType existingConcepts sec).toList
          ++ chunkBySections lines filePath mimeType existingConcepts secs := by
      simp only [chunkBySections, List.filterMap_cons]
      cases sectionChunk lines filePath mimeType existingConcepts sec <;> rfl
    have hslice : pySlice lines (sectionStart sec) (sectionEnd lines sec)
        = (lines.drop i).take (j - i) := by
      rw [hi, hj, show (j : ℤ) = (i : ℤ) + ((j - i : ℕ) : ℤ) by omega, pySlice_of_nonneg]
    have hdrop : lines.drop i = (lines.drop i).take (j - i) ++ lines.drop j := by
      have := (List.take_append_drop (j - i) (lines.drop i)).symm
      rwa [List.drop_drop, Nat.add_sub_cancel' hij] at this
    rw [hfm, List.map_append, List.flatten_append, List.filter_append, ih,
      filter_sectionChunk, hslice]
    conv_rhs => rw [hdrop, List.flatten_append, List.filter_append]

/-- **No text is lost or repeated.** When the sections tile the file, the chunks hold the
non-whitespace characters of the file, in order. -/
theorem chunkBySections_text_of_tiles {sections : List Section} (h : Tiles lines 0 sections) :
    ((chunkBySections lines filePath mimeType existingConcepts sections).map
        Chunk.content).flatten.filter (fun c ↦ !isSpace c)
      = lines.flatten.filter fun c ↦ !isSpace c :=
  chunkBySections_text_of_tiles_from lines filePath mimeType existingConcepts h

theorem chunkBySections_halves :
    Tiles ["a\n".toList, "\n".toList, "b\n".toList] 0
        [⟨some "intro".toList, some 1, some 2⟩, ⟨none, some 3, none⟩] ∧
      ((chunkBySections ["a\n".toList, "\n".toList, "b\n".toList] "f".toList "text/plain".toList
          [] [⟨some "intro".toList, some 1, some 2⟩, ⟨none, some 3, none⟩]).map
          Chunk.content).flatten.filter (fun c ↦ !isSpace c)
        = (["a\n".toList, "\n".toList, "b\n".toList] : List Str).flatten.filter
          fun c ↦ !isSpace c := by
  have ht : Tiles ["a\n".toList, "\n".toList, "b\n".toList] 0
      [⟨some "intro".toList, some 1, some 2⟩, ⟨none, some 3, none⟩] :=
    .cons (j := 2) (by decide) (by decide) (by decide)
      (.cons (j := 3) (by decide) (by decide) (by decide) .nil)
  exact ⟨ht, chunkBySections_text_of_tiles _ _ _ _ ht⟩

/-! ## `chunk_by_size` is `chunk_by_sections` -/

/-- The sections `chunk_by_size` cuts `len` lines into for `max_lines = m`: the unlabelled
ranges `m*k+1 .. min(m*k+m, len)`. -/
def sizeSections (len m : ℕ) : List Section :=
  (List.range ((len - 1) / m + 1)).map fun k ↦
    ⟨none, some ((m * k + 1 : ℕ) : ℤ), some ((min (m * k + m) len : ℕ) : ℤ)⟩

theorem batchChunk_eq_sectionChunk (m k : ℕ) :
    batchChunk lines filePath mimeType existingConcepts m ((m * k : ℕ) : ℤ)
      = sectionChunk lines filePath mimeType existingConcepts
          ⟨none, some ((m * k + 1 : ℕ) : ℤ), some ((min (m * k + m) lines.length : ℕ) : ℤ)⟩ := by
  have hstart : sectionStart ⟨none, some ((m * k + 1 : ℕ) : ℤ),
      some ((min (m * k + m) lines.length : ℕ) : ℤ)⟩ = ((m * k : ℕ) : ℤ) := by
    simp only [sectionStart, Option.getD_some]
    omega
  have hidx : sliceIndex lines.length ((min (m * k + m) lines.length : ℕ) : ℤ)
      = sliceIndex lines.length ((m * k : ℕ) + (m : ℤ)) := by
    simp only [sliceIndex, if_neg (show ¬((min (m * k + m) lines.length : ℕ) : ℤ) < 0 by omega),
      if_neg (show ¬(((m * k : ℕ) : ℤ) + (m : ℤ)) < 0 by omega)]
    omega
  have hslice : pySlice lines ((m * k : ℕ) : ℤ) ((min (m * k + m) lines.length : ℕ) : ℤ)
      = pySlice lines ((m * k : ℕ) : ℤ) ((m * k : ℕ) + (m : ℤ)) := by
    simp only [pySlice, hidx]
  rw [batchChunk_mul, sectionChunk_eq, hstart, sectionEnd, Option.getD_some, hslice,
    pySlice_of_nonneg]
  simp only [batch, Option.getD_none, Nat.cast_add, Nat.cast_one]

theorem tiles_sizeSections {m : ℕ} (hm : 0 < m) :
    ∀ (c k : ℕ), m * k < lines.length → lines.length ≤ m * (k + c) →
      m * (k + c) < lines.length + m →
      Tiles lines (m * k) ((List.range' k c).map fun k ↦
        ⟨none, some ((m * k + 1 : ℕ) : ℤ), some ((min (m * k + m) lines.length : ℕ) : ℤ)⟩)
  | 0, k, hk, hc, _ => absurd hc (by simpa using hk)
  | c + 1, k, hk, hc, hlt => by
    rw [List.range'_succ, List.map_cons]
    have hstart : sectionStart ⟨none, some ((m * k + 1 : ℕ) : ℤ),
        some ((min (m * k + m) lines.length : ℕ) : ℤ)⟩ = m * k := by
      simp only [sectionStart, Option.getD_some]
      omega
    have hmul : m * (k + 1 + c) = m * (k + 1) + m * c := Nat.mul_add _ _ _
    have hmul₁ : m * (k + 1) = m * k + m := Nat.mul_succ _ _
    have hend : sectionEnd lines ⟨none, some ((m * k + 1 : ℕ) : ℤ),
        some ((min (m * k + m) lines.length : ℕ) : ℤ)⟩ = ((min (m * k + m) lines.length : ℕ) : ℤ) :=
      rfl
    rw [show k + (c + 1) = k + 1 + c by omega] at hc hlt
    by_cases hnext : m * (k + 1) < lines.length
    · refine .cons hstart (hend.trans (congrArg _ (by omega : _ = m * (k + 1)))) (by omega) ?_
      exact tiles_sizeSections hm c (k + 1) hnext hc hlt
    · have hc0 : c = 0 := by
        by_contra hc0
        have : m ≤ m * c := Nat.le_mul_of_pos_right m (Nat.pos_of_ne_zero hc0)
        rw [hmul] at hlt
        omega
      subst hc0
      exact .cons hstart (hend.trans (congrArg _ (by omega : _ = lines.length))) (by omega) .nil

/-- **The size chunker is the section chunker.** For `1 ≤ m < len(lines)`, `chunk_by_size`
returns what `chunk_by_sections` returns on the unlabelled sections
`lines m*k+1 .. min(m*k+m, len)`, and these sections tile the file. -/
theorem chunkBySize_eq_chunkBySections {m : ℕ} (hm : 0 < m) (hlt : m < lines.length) :
    chunkBySize lines filePath mimeType existingConcepts m
        = .ok (chunkBySections lines filePath mimeType existingConcepts
          (sizeSections lines.length m)) ∧
      Tiles lines 0 (sizeSections lines.length m) := by
  refine ⟨?_, ?_⟩
  · rw [chunkBySize_of_pos _ _ _ _ hm hlt, chunkBySections, sizeSections, List.filterMap_map]
    refine congrArg Except.ok (List.filterMap_congr fun k _ ↦ ?_)
    dsimp only [Function.comp_apply]
    exact batchChunk_eq_sectionChunk lines filePath mimeType existingConcepts m k
  · have hdiv := Nat.lt_mul_div_succ (lines.length - 1) hm
    have hdiv' := Nat.div_mul_le_self (lines.length - 1) m
    have := tiles_sizeSections lines hm ((lines.length - 1) / m + 1) 0 (by omega)
      (by rw [zero_add]; omega) (by rw [zero_add, Nat.mul_add_one, Nat.mul_comm m]; omega)
    simpa [sizeSections, List.range_eq_range'] using this

theorem chunkBySize_three_lines_as_sections :
    0 < 2 ∧ 2 < (["a\n".toList, "b\n".toList, "c\n".toList] : List Str).length ∧
      chunkBySize ["a\n".toList, "b\n".toList, "c\n".toList] "f".toList "text/plain".toList [] 2
        = .ok (chunkBySections ["a\n".toList, "b\n".toList, "c\n".toList] "f".toList
          "text/plain".toList [] (sizeSections 3 2)) ∧
      Tiles ["a\n".toList, "b\n".toList, "c\n".toList] 0 (sizeSections 3 2) :=
  ⟨by decide, by decide, chunkBySize_eq_chunkBySections _ _ _ _ (by decide) (by decide)⟩

end Chunking

end Plexus
