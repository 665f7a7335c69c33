import Plexus.Extraction.Fusion

/-!
# Where the positional boost comes from

`compute_positional_boost` walks the lines of the text once, carrying the header tokens, the
first-paragraph tokens and the flag `in_first_para`, and then gives each term
`1.0 + 0.3 * [a word is a header token] + 0.1 * [a word is a first-paragraph token]`. Here the
walk is solved once and for all: what the three pieces of state hold after the last line, as a
function of the lines (`foldl_boostScanLine`, by one induction over the lines).

## What the state holds

* The header tokens are the tokens of every line whose stripped text starts with `#`, wherever
  it stands: a header after the first paragraph still counts.
* The first-paragraph tokens are those of the lines before the first line whose stripped text is
  empty, headers left out. A whitespace-only line ends the first paragraph as an empty one does;
  a header inside the first paragraph does not end it.
* `in_first_para` is still true after the walk exactly when no line is blank.

So the boost of every term in the table is read off the text (`positionalBoost_eq`).
-/

namespace Plexus

variable (db : UnicodeDb)

/-- `line.strip().startswith('#')`. -/
def isHeaderLine (line : Str) : Bool := decide ((strStrip line).head? = some '#')

/-- `line.strip() != ''`. -/
def isFilledLine (line : Str) : Bool := !(strStrip line).isEmpty

/-- The tokens of the header lines among `lines`. -/
def headerTokens (lines : List Str) : List Str :=
  (lines.filter isHeaderLine).flatMap fun line ↦ tokenize db (strStrip line)

/-- The tokens of the lines before the first blank line, headers left out. -/
def firstParaTokens (lines : List Str) : List Str :=
  ((lines.takeWhile isFilledLine).filter fun line ↦ !isHeaderLine line).flatMap fun line ↦
    tokenize db (strStrip line)

/-- A header line is not blank. -/
theorem isFilledLine_of_isHeaderLine {line : Str} (h : isHeaderLine line = true) :
    isFilledLine line = true := by
  rw [isHeaderLine, decide_eq_true_eq] at h
  rw [isFilledLine]
  cases hs : strStrip line with
  | nil => rw [hs] at h; cases h
  | cons c cs => rfl

/-- **The walk, solved.** From any state, the loop appends the header tokens of the lines, and,
while the first paragraph is open, the tokens of its lines; it stays open until a blank line. -/
theorem foldl_boostScanLine (lines H F : List Str) (b : Bool) :
    lines.foldl (boostScanLine db) ⟨H, F, b⟩ =
      ⟨H ++ headerTokens db lines, F ++ (if b then firstParaTokens db lines else []),
        b && lines.all isFilledLine⟩ := by
  induction lines generalizing H F b with
  | nil => cases b <;> simp [headerTokens, firstParaTokens]
  | cons line lines ih =>
    rw [List.foldl_cons]
    by_cases hh : isHeaderLine line = true
    · have hf := isFilledLine_of_isHeaderLine hh
      rw [boostScanLine, if_pos (by simpa [isHeaderLine] using hh), ih]
      cases b <;> simp [headerTokens, firstParaTokens, hh, hf]
    · have hh' : ¬(strStrip line).head? = some '#' := by simpa [isHeaderLine] using hh
      by_cases hf : isFilledLine line = true
      · have hne : ¬strStrip line = [] := by simpa [isFilledLine] using hf
        cases b <;> simp [boostScanLine, hh', hne, ih, headerTokens, firstParaTokens, hh, hf]
      · have hnil : strStrip line = [] := by simpa [isFilledLine] using hf
        cases b <;> simp [boostScanLine, hh', hnil, ih, headerTokens, firstParaTokens, hh, hf]

/-- The state after the whole text. -/
theorem boostScan_eq (text : Str) :
    boostScan db text =
      ⟨headerTokens db (strSplitLines text), firstParaTokens db (strSplitLines text),
        (strSplitLines text).all isFilledLine⟩ := by
  rw [boostScan, foldl_boostScanLine]
  simp

/-- **The boost, read off the text.** Every term of the table gets `1`, plus `0.3` if one of its
words is a token of a header line anywhere in the text, plus `0.1` if one is a token of a
non-header line before the first blank line. -/
theorem positionalBoost_eq (text : Str) (terms : List Str) {term : Str} (h : term ∈ terms) :
    dictGet (computePositionalBoost db text terms) term 1 =
      1 + (if ∃ w ∈ strSplit term, ∃ line ∈ strSplitLines text,
              isHeaderLine line ∧ w ∈ tokenize db (strStrip line) then 3 / 10 else 0)
        + (if ∃ w ∈ strSplit term, ∃ line ∈ (strSplitLines text).takeWhile isFilledLine,
              isHeaderLine line = false ∧ w ∈ tokenize db (strStrip line) then 1 / 10 else 0) := by
  rw [dictGet_computePositionalBoost, if_pos h, boostScan_eq, boostOf]
  congr 1
  · congr 1
    exact if_congr (by simp [headerTokens, and_assoc]) rfl rfl
  · exact if_congr (by simp [firstParaTokens, and_assoc]) rfl rfl

/-- A title word and a first-paragraph word: `zeta data` gets `1 + 0.3 + 0.1`. -/
theorem positionalBoost_title_and_lead :
    dictGet (computePositionalBoost .ascii "# Data\nzeta data\n\nzeta".toList ["zeta data".toList])
      "zeta data".toList 1 = 7 / 5 :=
  (positionalBoost_eq .ascii _ _ (List.mem_singleton_self _)).trans (by with_unfolding_all decide)

end Plexus
