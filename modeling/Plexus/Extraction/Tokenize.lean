import Plexus.Python.Regex
import Plexus.Extraction.Stopwords

/-!
# Tokens, paragraphs and n-grams

`tokenize`, `tokenize_by_paragraph` and `extract_ngrams_from_paragraphs` of the extraction script,
with the token pattern `\b[a-z][a-z\-]+[a-z]\b` and the paragraph separator `\n\s*\n` as
`Pattern`s.

## Two token streams

The script feeds term frequency and TextRank from `tokenize(text)`, and n-grams from
`tokenize_by_paragraph(text)`, which splits first, lowercases each paragraph alone and drops the
blank ones. The split cuts the text at its blank lines and nowhere else: the pieces joined by
separators give back the text, and no piece holds a newline, whitespace and a newline
(`splitParagraphs_cut_at_blank_lines`).

`flatten_tokenizeByParagraph` shows that the two streams hold the same tokens in the same order.
It rests on two facts: a newline stops every scan of the token pattern (`scan_append_stop`), and
lowercasing commutes with cutting at whitespace (a field of `UnicodeDb`), so a separator looks to
the token pattern exactly like the end of the string.
-/

namespace Plexus

variable (db : UnicodeDb)

/-! ## The token pattern -/

/-- `[a-z\-]`. -/
def isTokenChar (c : Char) : Bool := isLowerAscii c || c == '-'

/-- Where a scan of `[a-z][a-z\-]+[a-z]` stands: before the first letter, after one or two
characters, or after three or more, the last of them a letter or not. -/
inductive TokenState
  | start
  | first
  | second
  | body (lastLetter : Bool)
  deriving DecidableEq

/-- `\b[a-z][a-z\-]+[a-z]\b`. The match opens with a letter, so the opening `\b` asks for no word
character in front; it closes with a letter, so the closing `\b` asks for none behind. -/
def tokenPattern : Pattern TokenState where
  behind prev := !prev.any db.isWord
  start := .start
  step
    | .start, c => if isLowerAscii c then some .first else none
    | .first, c => if isTokenChar c then some .second else none
    | _, c => if isTokenChar c then some (.body (isLowerAscii c)) else none
  accept
    | .body true, next => !next.any db.isWord
    | _, _ => false

/-- `tokenize(text)`: `re.findall(r'\b[a-z][a-z\-]+[a-z]\b', text.lower())`. -/
def tokenize (text : Str) : List Str := (tokenPattern db).findall (db.lower text)

/-! ## Paragraphs -/

/-- Where a scan of `\n\s*\n` stands: before the first newline, just after it, or in the
whitespace after it, whose last character was a newline or not. -/
inductive BlankState
  | start
  | first
  | gap (lastNewline : Bool)
  deriving DecidableEq

/-- `\n\s*\n`, with no test in front or behind. -/
def blankPattern : Pattern BlankState where
  behind _ := true
  start := .start
  step
    | .start, c => if c = '\n' then some .first else none
    | _, c => if isSpace c then some (.gap (c == '\n')) else none
  accept
    | .gap true, _ => true
    | _, _ => false

@[simp] theorem blankPattern_behind (prev : Option Char) : blankPattern.behind prev = true := rfl

@[simp] theorem blankPattern_start : blankPattern.start = .start := rfl

theorem blankPattern_step (q : BlankState) (c : Char) :
    blankPattern.step q c = if q = .start then (if c = '\n' then some .first else none)
      else if isSpace c then some (.gap (c == '\n')) else none := by
  cases q <;> rfl

@[simp] theorem blankPattern_accept (q : BlankState) (next : Option Char) :
    blankPattern.accept q next = (q == .gap true) := by
  rcases q with _ | _ | ⟨_ | _⟩ <;> rfl

/-- `re.split(r'\n\s*\n', text)`. -/
def splitParagraphs (text : Str) : List Str := blankPattern.split 0 none [] text

/-- `tokenize_by_paragraph(text)`: the token lists of the paragraphs that are not blank. -/
def tokenizeByParagraph (text : Str) : List (List Str) :=
  ((splitParagraphs text).filter fun p ↦ !(strStrip p).isEmpty).map (tokenize db)

/-! ## Blank-line cuts -/

/-- `text` is the pieces `ps` joined by blank-line separators: a newline, a run of whitespace,
and a newline. -/
inductive BlankCut : Str → List Str → Prop
  | single (p : Str) : BlankCut p [p]
  | cons (p w : Str) {t : Str} {ps : List Str} :
      (∀ c ∈ w, isSpace c) → BlankCut t ps → BlankCut (p ++ '\n' :: (w ++ '\n' :: t)) (p :: ps)

/-- Past its first newline, a separator match is whitespace ending in a newline. -/
theorem blankPattern_longest_of_ne_start {q : BlankState} (hq : q ≠ .start) {s : Str} {n : ℕ}
    (h : blankPattern.longest q s = some n) :
    ∃ w, s.take n = w ++ ['\n'] ∧ ∀ c ∈ w, isSpace c := by
  induction s generalizing q n with
  | nil => simp [Pattern.longest] at h
  | cons c cs ih =>
    have hstep : blankPattern.step q c = if isSpace c then some (.gap (c == '\n')) else none := by
      simp [blankPattern_step, hq]
    by_cases hc : isSpace c
    · rw [Pattern.longest.eq_2, hstep, if_pos hc] at h
      dsimp only at h
      cases hm : blankPattern.longest (.gap (c == '\n')) cs with
      | some m =>
        rw [hm] at h
        cases h
        obtain ⟨w, hw, hsp⟩ := ih (by simp) hm
        exact ⟨c :: w, by simp [hw], by simpa [hc] using hsp⟩
      | none =>
        rw [hm] at h
        split_ifs at h with hacc
        cases h
        have : c = '\n' := by simpa using hacc
        exact ⟨[], by simp [this], by simp⟩
    · rw [Pattern.longest.eq_2, hstep, if_neg hc] at h
      cases h

/-- A separator match is a newline, whitespace, and a newline. -/
theorem blankPattern_matchAt {prev : Option Char} {s : Str} {n : ℕ}
    (h : blankPattern.matchAt prev s = some n) :
    ∃ w t, s = '\n' :: (w ++ '\n' :: t) ∧ n = w.length + 2 ∧ ∀ c ∈ w, isSpace c := by
  rcases s with _ | ⟨c, cs⟩
  · simp [Pattern.matchAt, Pattern.longest] at h
  by_cases hc : c = '\n'
  · subst hc
    have h' : blankPattern.longest .first cs = some (n - 1) ∧ 1 ≤ n := by
      simp only [Pattern.matchAt, blankPattern_behind, blankPattern_start, if_true,
        Pattern.longest.eq_2, blankPattern_step] at h
      cases hm : blankPattern.longest .first cs with
      | none => simp [hm] at h
      | some m =>
        simp only [hm, Option.some.injEq] at h
        subst h
        simp
    obtain ⟨w, hw, hsp⟩ := blankPattern_longest_of_ne_start (by simp) h'.1
    have hlen := congrArg List.length hw
    have hle := (blankPattern.longest_pos_le h'.1).2
    simp only [List.length_take, List.length_append, List.length_singleton] at hlen
    refine ⟨w, cs.drop (n - 1), ?_, by omega, hsp⟩
    conv_lhs => rw [← List.take_append_drop (n - 1) cs, hw]
    simp
  · simp [Pattern.matchAt, Pattern.longest, blankPattern_step, hc] at h

theorem blankCut_split (s piece : Str) (prev : Option Char) :
    BlankCut (piece.reverse ++ s) (blankPattern.split 0 prev piece s) := by
  induction' h : s.length using Nat.strong_induction_on with len ih generalizing s piece prev
  rcases s with _ | ⟨c, cs⟩
  · simpa [Pattern.split] using BlankCut.single piece.reverse
  rw [Pattern.split.eq_3]
  cases hm : blankPattern.matchAt prev (c :: cs) with
  | none => simpa using ih cs.length (by simp [← h]) cs (c :: piece) (some c) rfl
  | some n =>
    obtain ⟨w, t, hs, rfl, hw⟩ := blankPattern_matchAt hm
    obtain ⟨rfl, rfl⟩ := List.cons.inj hs
    have hskip := blankPattern.split_skip (some '\n') [] (w ++ ['\n']) t
    simp only [List.length_append, List.length_singleton, List.append_assoc,
      List.singleton_append] at hskip
    simp only [show w.length + 2 - 1 = w.length + 1 by omega, hskip]
    exact .cons _ _ hw (by simpa using ih t.length (by simp [← h]; omega) t [] _ rfl)

theorem blankCut_splitParagraphs (text : Str) : BlankCut text (splitParagraphs text) := by
  simpa using blankCut_split text [] none

/-! ## No piece holds a separator -/

/-- `s` holds a blank-line separator: a newline, whitespace only, and a newline. -/
def HasBlankLine (s : Str) : Prop :=
  ∃ w, (∀ c ∈ w, isSpace c) ∧ '\n' :: (w ++ ['\n']) <:+: s

/-- Past the first newline, whitespace up to a newline always completes a separator. -/
theorem blankPattern_longest_ne_none {q : BlankState} (hq : q ≠ .start) {w : Str}
    (hw : ∀ c ∈ w, isSpace c) (t : Str) : blankPattern.longest q (w ++ '\n' :: t) ≠ none := by
  induction w generalizing q with
  | nil =>
    have hnl : isSpace '\n' = true := rfl
    simp only [List.nil_append, Pattern.longest.eq_2, blankPattern_step, if_neg hq, hnl, if_true]
    split <;> simp
  | cons c w ih =>
    have hc : isSpace c = true := hw c (List.mem_cons_self c w)
    have hrest := ih (q := .gap (c == '\n')) (by simp) fun x hx ↦ hw x (List.mem_cons_of_mem c hx)
    simp only [List.cons_append, Pattern.longest.eq_2, blankPattern_step, if_neg hq, hc, if_true]
    split <;> simp_all

/-- The scan has passed `piece` (reversed) with `s` still to read: no stretch of it, followed by
the rest of the text, opens a separator. -/
def Passed (piece s : Str) : Prop :=
  ∀ u, u ≠ [] → u <+: piece → blankPattern.longest .start (u.reverse ++ s) = none

theorem passed_nil (s : Str) : Passed [] s :=
  fun _ hu hpre ↦ absurd (List.eq_nil_of_prefix_nil hpre) hu

/-- Passing one more character, where no separator starts. -/
theorem Passed.cons {piece cs : Str} {c : Char} (h : Passed piece (c :: cs))
    (hc : blankPattern.longest .start (c :: cs) = none) : Passed (c :: piece) cs := by
  rintro (_ | ⟨x, u⟩) hu hpre
  · exact absurd rfl hu
  obtain ⟨rfl, hu'⟩ := List.cons_prefix_cons.mp hpre
  rcases eq_or_ne u [] with rfl | hne
  · simpa using hc
  · simpa using h u hne hu'

/-- A passed piece holds no separator: its first newline would have opened a match. -/
theorem Passed.not_hasBlankLine {piece s : Str} (h : Passed piece s) :
    ¬HasBlankLine piece.reverse := by
  rintro ⟨w, hw, a, b, hab⟩
  have hpre : (('\n' :: (w ++ ['\n'])) ++ b).reverse <+: piece := by
    rw [← List.reverse_reverse piece, ← hab]
    exact ⟨a.reverse, by simp⟩
  obtain ⟨n, hn⟩ := Option.ne_none_iff_exists'.mp
    (blankPattern_longest_ne_none (q := .first) (by simp) hw (b ++ s))
  simpa [Pattern.longest, blankPattern_step, hn] using h _ (by simp) hpre

/-- Every piece `re.split` returns was passed by the scan with no separator starting in it. -/
theorem not_hasBlankLine_of_mem_split {k : ℕ} {prev : Option Char} {piece s : Str}
    (hk : 0 < k → piece = []) (hpiece : Passed piece s) {p : Str}
    (hp : p ∈ blankPattern.split k prev piece s) : ¬HasBlankLine p := by
  induction s generalizing k prev piece with
  | nil =>
    rw [Pattern.split, List.mem_singleton] at hp
    exact hp ▸ hpiece.not_hasBlankLine
  | cons c cs ih =>
    cases k with
    | succ k =>
      obtain rfl := hk (Nat.succ_pos k)
      exact ih (fun _ ↦ rfl) (passed_nil cs) hp
    | zero =>
      rw [Pattern.split.eq_3] at hp
      cases hm : blankPattern.matchAt prev (c :: cs) with
      | some n =>
        rw [hm, List.mem_cons] at hp
        rcases hp with rfl | hp
        · exact hpiece.not_hasBlankLine
        · exact ih (fun _ ↦ rfl) (passed_nil cs) hp
      | none =>
        rw [hm] at hp
        exact ih (fun h ↦ absurd h (Nat.lt_irrefl 0))
          (hpiece.cons (by simpa [Pattern.matchAt] using hm)) hp

/-- No paragraph of `re.split(r'\n\s*\n', text)` holds a blank line. -/
theorem not_hasBlankLine_of_mem_splitParagraphs {text p : Str} (hp : p ∈ splitParagraphs text) :
    ¬HasBlankLine p :=
  not_hasBlankLine_of_mem_split (fun h ↦ absurd h (Nat.lt_irrefl 0)) (passed_nil text) hp

/-- **The paragraphs.** `re.split(r'\n\s*\n', text)` cuts the text at its blank lines and nowhere
else: the text is the pieces joined by separators, a newline, whitespace and a newline, and no
piece holds such a separator. -/
theorem splitParagraphs_cut_at_blank_lines (text : Str) :
    BlankCut text (splitParagraphs text) ∧ ∀ p ∈ splitParagraphs text, ¬HasBlankLine p :=
  ⟨blankCut_splitParagraphs text, fun _ ↦ not_hasBlankLine_of_mem_splitParagraphs⟩

/-! ## The token stream across a cut -/

variable {db}

theorem tokenPattern_stops_newline : (tokenPattern db).Stops '\n' := by
  refine ⟨fun q ↦ ?_, fun q ↦ ?_⟩
  · cases q <;> rfl
  · have : db.isWord '\n' = false := UnicodeDb.isWord_of_isSpace rfl
    cases q with
    | body b => cases b <;> simp [tokenPattern, this]
    | _ => rfl

theorem tokenPattern_step_start_of_isSpace {c : Char} (hc : isSpace c) :
    (tokenPattern db).step (tokenPattern db).start c = none := by
  simp [tokenPattern, isLowerAscii_of_isSpace hc]

/-- A scan passes over whitespace without a match. -/
theorem scan_spaces_append {w : Str} (hw : ∀ c ∈ w, isSpace c) (prev : Option Char) (u : Str) :
    (tokenPattern db).scan 0 prev (w ++ u) = (tokenPattern db).scan 0 (w.getLast? <|> prev) u := by
  induction w generalizing prev with
  | nil => rfl
  | cons c w ih =>
    have hc := @tokenPattern_step_start_of_isSpace db c (hw c (List.mem_cons_self c w))
    rw [List.cons_append, Pattern.scan.eq_3]
    simp only [Pattern.matchAt, Pattern.longest, hc, ite_self]
    rw [ih fun d hd ↦ hw d (List.mem_cons_of_mem c hd)]
    cases w <;> simp [List.getLast?_cons]

theorem tokenize_of_forall_isSpace {p : Str} (hp : ∀ c ∈ p, isSpace c) : tokenize db p = [] := by
  rw [tokenize, UnicodeDb.lower_of_forall_isSpace hp]
  exact Pattern.scan_eq_nil _ (fun c hc ↦ tokenPattern_step_start_of_isSpace (hp c hc)) 0 none

/-- **A blank-line separator cuts the token stream.** -/
theorem tokenize_cut (p w t : Str) (hw : ∀ c ∈ w, isSpace c) :
    tokenize db (p ++ '\n' :: (w ++ '\n' :: t)) = tokenize db p ++ tokenize db t := by
  have hsep : ∀ c ∈ w ++ ['\n'], isSpace c := by
    intro c hc
    rcases List.mem_append.mp hc with hc | hc
    · exact hw c hc
    · rw [List.mem_singleton.mp hc]; rfl
  have hlow : db.lower (p ++ '\n' :: (w ++ '\n' :: t))
      = db.lower p ++ '\n' :: ((w ++ ['\n']) ++ db.lower t) := by
    rw [db.lower_append_space p (w ++ '\n' :: t) '\n' rfl, ← UnicodeDb.lower_spaces_append hsep]
    simp
  rw [tokenize, hlow, Pattern.findall,
    Pattern.scan_append_stop tokenPattern_stops_newline _ _ 0 none (Nat.zero_le _),
    scan_spaces_append hsep]
  congr 1
  exact Pattern.scan_congr_prev
    (by simp [tokenPattern, UnicodeDb.isWord_of_isSpace (show isSpace '\n' = true from rfl)]) 0 _

theorem flatten_map_tokenize_of_blankCut {text : Str} {ps : List Str} (h : BlankCut text ps) :
    (ps.map (tokenize db)).flatten = tokenize db text := by
  induction h with
  | single p => simp
  | cons p w hw _ ih => simp [tokenize_cut p w _ hw, ih]

/-- **The paragraph stream is the flat stream.** Concatenating the token lists of
`tokenize_by_paragraph(text)` gives `tokenize(text)`: splitting at blank lines, lowercasing each
paragraph alone and dropping the blank ones loses, adds, splits, merges and reorders no token. -/
theorem flatten_tokenizeByParagraph (text : Str) :
    (tokenizeByParagraph db text).flatten = tokenize db text := by
  rw [← flatten_map_tokenize_of_blankCut (blankCut_splitParagraphs text), tokenizeByParagraph]
  induction splitParagraphs text with
  | nil => rfl
  | cons p ps ih =>
    by_cases hp : (strStrip p).isEmpty
    · simp [hp, ih, tokenize_of_forall_isSpace
        (strStrip_eq_nil_iff.mp (List.isEmpty_iff.mp hp))]
    · simp [hp, ih]

/-! ## N-grams -/

/-- `extract_ngrams_from_paragraphs(paragraph_tokens, n)`: each window of `n` consecutive tokens of
one paragraph, space-joined, unless a stopword is at either end or every word is one. The script
calls it with `n = 2` and `n = 3`. -/
def extractNgramsFromParagraphs (paragraphTokens : List (List Str)) (n : ℕ) : List Str :=
  paragraphTokens.flatMap fun tokens ↦
    (List.range (tokens.length + 1 - n)).filterMap fun i ↦
      let gram := (tokens.drop i).take n
      if gram.head?.any (· ∈ stopwords) || gram.getLast?.any (· ∈ stopwords) then none
      else if gram.all (· ∈ stopwords) then none
      else some (strJoin gram)

end Plexus
