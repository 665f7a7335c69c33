import Mathlib.Data.List.Basic

/-!
# Python strings and the Unicode tables

The extraction script works on Python `str` values with `re` patterns compiled for `str`, so every
character class it uses is Unicode-aware: `\s` and the argument-free `str.split` and `str.strip`
read `str.isspace`, `\b` and `\w` read `str.isalnum`, and `str.lower` is the full lowercase mapping.
A `str` is modelled as its list of code points.

## What is written out and what is a parameter

The whitespace table is small and fixed, and `isSpace` writes it out. The lowercase mapping and
the alphanumeric and digit tables are large; they are the fields of a `UnicodeDb`, together with
the two facts about them that the development uses. Both are facts of every Unicode version Python
ships: whitespace is never alphanumeric, and whitespace is caseless and cuts the context that the
final-sigma rule of `str.lower` looks at, so lowering commutes with cutting a string at a
whitespace character.

`UnicodeDb.ascii` is the database restricted to ASCII. It agrees with Python on every ASCII string,
and the concrete runs of the model use it on ASCII inputs only.
-/

namespace Plexus

/-- A Python `str`, as its list of code points. -/
abbrev Str := List Char

/-! ## Character classes -/

/-- `str.isspace` on one character: bidirectional class WS, B or S, or general category Zs. -/
def isSpace (c : Char) : Bool :=
  let n := c.toNat
  decide (9 ≤ n ∧ n ≤ 13) || decide (28 ≤ n ∧ n ≤ 32) || n == 0x85 || n == 0xA0 || n == 0x1680 ||
    decide (0x2000 ≤ n ∧ n ≤ 0x200A) || n == 0x2028 || n == 0x2029 || n == 0x202F ||
    n == 0x205F || n == 0x3000

/-- The pattern class `[a-z]`. -/
def isLowerAscii (c : Char) : Bool := decide (97 ≤ c.toNat ∧ c.toNat ≤ 122)

/-- The pattern class `[A-Z]`. -/
def isUpperAscii (c : Char) : Bool := decide (65 ≤ c.toNat ∧ c.toNat ≤ 90)

/-- The ASCII digits `0-9`. -/
def isDigitAscii (c : Char) : Bool := decide (48 ≤ c.toNat ∧ c.toNat ≤ 57)

theorem toNat_of_isSpace {c : Char} (h : isSpace c) :
    (9 ≤ c.toNat ∧ c.toNat ≤ 13) ∨ (28 ≤ c.toNat ∧ c.toNat ≤ 32) ∨ 0x85 ≤ c.toNat := by
  simp only [isSpace, Bool.or_eq_true, decide_eq_true_eq, beq_iff_eq] at h
  omega

theorem isLowerAscii_of_isSpace {c : Char} (h : isSpace c) : isLowerAscii c = false := by
  have := toNat_of_isSpace h
  simp only [isLowerAscii, decide_eq_false_iff_not]
  omega

theorem isUpperAscii_of_isSpace {c : Char} (h : isSpace c) : isUpperAscii c = false := by
  have := toNat_of_isSpace h
  simp only [isUpperAscii, decide_eq_false_iff_not]
  omega

theorem ne_of_isSpace {c d : Char} (h : isSpace c) (hd : isSpace d = false) : c ≠ d := by
  rintro rfl
  simp [h] at hd

theorem toNat_toLower (c : Char) :
    c.toLower.toNat = if 65 ≤ c.toNat ∧ c.toNat ≤ 90 then c.toNat + 32 else c.toNat := by
  simp only [Char.toLower, ge_iff_le]
  split_ifs with h
  · have hv : (c.toNat + 32).isValidChar := Or.inl (by omega)
    rw [Char.ofNat, dif_pos hv]
    rfl
  · rfl

theorem isLowerAscii_toLower {c : Char} (h : isLowerAscii c ∨ isUpperAscii c) :
    isLowerAscii c.toLower := by
  simp only [isLowerAscii, isUpperAscii, decide_eq_true_eq] at h ⊢
  rw [toNat_toLower]
  split_ifs <;> omega

/-- Lowering keeps a character outside `A`–`Z`. -/
theorem toLower_eq_self {c : Char} (h : isUpperAscii c = false) : c.toLower = c := by
  simp only [isUpperAscii, decide_eq_false_iff_not] at h
  simp only [Char.toLower, ge_iff_le, if_neg h]

/-! ## The Unicode database -/

/-- The tables of Python's Unicode database that the script reads and that are not written out
here, with the two facts about them the development relies on. -/
structure UnicodeDb where
  /-- `str.lower`. -/
  lower : Str → Str
  /-- `str.isalnum` on one character. -/
  isAlnum : Char → Bool
  /-- `str.isdigit` on one character. -/
  isDigit : Char → Bool
  lower_nil : lower [] = []
  /-- Lowering commutes with cutting at a whitespace character. -/
  lower_append_space : ∀ (s t : Str) (c : Char), isSpace c →
    lower (s ++ c :: t) = lower s ++ c :: lower t
  /-- No whitespace character is alphanumeric. -/
  isAlnum_of_isSpace : ∀ c, isSpace c → isAlnum c = false
  /-- On ASCII, lowering maps `A`–`Z` to `a`–`z` and keeps every other character. -/
  lower_ascii : ∀ s : Str, (∀ c ∈ s, c.toNat < 128) → lower s = s.map Char.toLower

theorem toLower_of_isSpace {c : Char} (h : isSpace c) : c.toLower = c := by
  have := toNat_of_isSpace h
  simp only [Char.toLower]
  split_ifs with h'
  · omega
  · rfl

/-- The database on ASCII, extended to the rest of Unicode as if it had no letters, digits or
case. -/
def UnicodeDb.ascii : UnicodeDb where
  lower := List.map Char.toLower
  isAlnum c := isLowerAscii c || isUpperAscii c || isDigitAscii c
  isDigit := isDigitAscii
  lower_nil := rfl
  lower_append_space s t c h := by simp [toLower_of_isSpace h]
  isAlnum_of_isSpace c h := by
    have := toNat_of_isSpace h
    simp only [isLowerAscii, isUpperAscii, isDigitAscii, Bool.or_eq_false_iff,
      decide_eq_false_iff_not]
    omega
  lower_ascii _ _ := rfl

namespace UnicodeDb

variable (db : UnicodeDb)

/-- `\w` of a `str` pattern: an alphanumeric character or the underscore. -/
def isWord (c : Char) : Bool := db.isAlnum c || c == '_'

variable {db}

theorem isWord_of_isSpace {c : Char} (h : isSpace c) : db.isWord c = false := by
  simp [isWord, db.isAlnum_of_isSpace c h, ne_of_isSpace h (rfl : isSpace '_' = false)]

/-- Lowering leaves a run of whitespace in front alone. -/
theorem lower_spaces_append {w : Str} (hw : ∀ c ∈ w, isSpace c) (t : Str) :
    db.lower (w ++ t) = w ++ db.lower t := by
  induction w with
  | nil => rfl
  | cons c w ih =>
    have h := db.lower_append_space [] (w ++ t) c (hw c (List.mem_cons_self c w))
    rw [List.nil_append, db.lower_nil, List.nil_append] at h
    rw [List.cons_append, h, ih fun d hd ↦ hw d (List.mem_cons_of_mem c hd), List.cons_append]

theorem lower_of_forall_isSpace {w : Str} (hw : ∀ c ∈ w, isSpace c) : db.lower w = w := by
  simpa [db.lower_nil] using @lower_spaces_append db w hw []

end UnicodeDb

/-! ## String methods -/

/-- `str.split()` with no argument: the maximal runs of non-whitespace characters. -/
def strSplit (s : Str) : List Str := (s.splitOnP isSpace).filter fun w ↦ !w.isEmpty

/-- `' '.join(words)`. -/
def strJoin (words : List Str) : Str := [' '].intercalate words

/-- `str.strip()` with no argument. -/
def strStrip (s : Str) : Str := ((s.dropWhile isSpace).reverse.dropWhile isSpace).reverse

/-- `s.strip()` is empty exactly when every character of `s` is whitespace. -/
theorem strStrip_eq_nil_iff {s : Str} : strStrip s = [] ↔ ∀ c ∈ s, isSpace c := by
  constructor
  · intro h c hc
    simp only [strStrip, List.reverse_eq_nil_iff, List.dropWhile_eq_nil_iff, List.mem_reverse] at h
    rw [← List.takeWhile_append_dropWhile (p := isSpace) (l := s), List.mem_append] at hc
    exact hc.elim List.mem_takeWhile_imp (h c)
  · intro h
    simp [strStrip, List.dropWhile_eq_nil_iff.mpr h]

/-- `str.split('\n')`: the lines, the last one possibly empty. -/
def strSplitLines (s : Str) : List Str := s.splitOn '\n'

/-! ## Cutting at a separator -/

theorem splitOnP_append_cons {α : Type} (p : α → Bool) (xs ys : List α) {c : α} (hc : p c) :
    (xs ++ c :: ys).splitOnP p = xs.splitOnP p ++ ys.splitOnP p := by
  induction xs with
  | nil => simp [hc]
  | cons x xs ih =>
    rw [List.cons_append, List.splitOnP_cons, ih, List.splitOnP_cons]
    split_ifs
    · rfl
    · obtain ⟨l, ls, hl⟩ := List.exists_cons_of_ne_nil (List.splitOnP_ne_nil p xs)
      simp [hl]

/-- A piece of a split holds only characters of the string. -/
theorem mem_of_mem_splitOnP {α : Type} (p : α → Bool) {xs l : List α} {c : α}
    (hl : l ∈ xs.splitOnP p) (hc : c ∈ l) : c ∈ xs := by
  induction xs generalizing l with
  | nil => simp_all
  | cons x xs ih =>
    rw [List.splitOnP_cons] at hl
    split_ifs at hl
    · rcases List.mem_cons.mp hl with rfl | hl
      · cases hc
      · exact List.mem_cons_of_mem x (ih hl hc)
    · obtain ⟨l', ls, hls⟩ := List.exists_cons_of_ne_nil (List.splitOnP_ne_nil p xs)
      rw [hls] at hl ih
      rcases List.mem_cons.mp hl with rfl | hl
      · rcases List.mem_cons.mp hc with rfl | hc
        · exact List.mem_cons_self _ _
        · exact List.mem_cons_of_mem x (ih (List.mem_cons_self l' ls) hc)
      · exact List.mem_cons_of_mem x (ih (List.mem_cons_of_mem l' hl) hc)

theorem strSplitLines_append_newline (xs ys : Str) :
    strSplitLines (xs ++ '\n' :: ys) = strSplitLines xs ++ strSplitLines ys :=
  splitOnP_append_cons _ xs ys (by decide)

theorem mem_of_mem_strSplitLines {s line : Str} {c : Char} (hl : line ∈ strSplitLines s)
    (hc : c ∈ line) : c ∈ s :=
  mem_of_mem_splitOnP _ hl hc

/-- A piece of a split holds no separator. -/
theorem not_sep_of_mem_splitOnP {α : Type} (p : α → Bool) {xs l : List α} {c : α}
    (hl : l ∈ xs.splitOnP p) (hc : c ∈ l) : p c = false := by
  induction xs generalizing l with
  | nil => simp_all
  | cons x xs ih =>
    rw [List.splitOnP_cons] at hl
    split_ifs at hl with hx
    · rcases List.mem_cons.mp hl with rfl | hl
      · cases hc
      · exact ih hl hc
    · obtain ⟨l', ls, hls⟩ := List.exists_cons_of_ne_nil (List.splitOnP_ne_nil p xs)
      rw [hls] at hl ih
      rcases List.mem_cons.mp hl with rfl | hl
      · rcases List.mem_cons.mp hc with rfl | hc
        · simpa using hx
        · exact ih (List.mem_cons_self _ _) hc
      · exact ih (List.mem_cons_of_mem _ hl) hc

/-- A line of `str.split('\n')` holds no newline. -/
theorem newline_not_mem_of_mem_strSplitLines {s line : Str} (hl : line ∈ strSplitLines s) :
    '\n' ∉ line := fun hc ↦ by
  simpa using not_sep_of_mem_splitOnP _ hl hc

theorem strSplit_append_space (xs ys : Str) {c : Char} (hc : isSpace c) :
    strSplit (xs ++ c :: ys) = strSplit xs ++ strSplit ys := by
  rw [strSplit, splitOnP_append_cons _ xs ys hc, List.filter_append]
  rfl

/-- `s.split()` is empty exactly when every character of `s` is whitespace. -/
theorem strSplit_eq_nil_iff {s : Str} : strSplit s = [] ↔ ∀ c ∈ s, isSpace c := by
  induction s with
  | nil => simp [strSplit]
  | cons c s ih =>
    rw [strSplit, List.splitOnP_cons]
    split_ifs with hc
    · rw [List.filter_cons_of_neg (by simp), ← strSplit, ih]
      simp [hc]
    · obtain ⟨l, ls, hl⟩ := List.exists_cons_of_ne_nil (List.splitOnP_ne_nil isSpace s)
      rw [hl]
      simp [hc]

/-- A word without whitespace splits into itself. -/
theorem strSplit_eq_singleton {w : Str} (hw : w ≠ []) (hs : ∀ c ∈ w, isSpace c = false) :
    strSplit w = [w] := by
  rw [strSplit, List.splitOnP_eq_single _ _ fun c hc ↦ by simp [hs c hc]]
  simp [hw]

@[simp] theorem strJoin_singleton (w : Str) : strJoin [w] = w := by
  simp [strJoin, List.intercalate]

theorem strJoin_cons_cons (w v : Str) (vs : List Str) :
    strJoin (w :: v :: vs) = w ++ ' ' :: strJoin (v :: vs) := by
  simp [strJoin, List.intercalate]

/-- **Joining and splitting words.** Splitting a space-join of non-empty words without whitespace
gives the words back. -/
theorem strSplit_strJoin {ws : List Str} (h : ∀ w ∈ ws, w ≠ [] ∧ ∀ c ∈ w, isSpace c = false) :
    strSplit (strJoin ws) = ws := by
  induction ws with
  | nil => rfl
  | cons w ws ih =>
    have hw := h w (List.mem_cons_self w ws)
    have ih := ih fun v hv ↦ h v (List.mem_cons_of_mem w hv)
    cases ws with
    | nil => simpa using strSplit_eq_singleton hw.1 hw.2
    | cons v vs =>
      rw [strJoin_cons_cons, strSplit_append_space _ _ (show isSpace ' ' from rfl),
        strSplit_eq_singleton hw.1 hw.2, ih]
      rfl

end Plexus
