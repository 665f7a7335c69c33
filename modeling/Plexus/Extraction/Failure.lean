import Plexus.Extraction.Candidates
import Plexus.Extraction.Guards

/-!
# Which texts make `process` raise

`process` raises `ZeroDivisionError` exactly when a pooled term has no words
(`process_eq_error_iff`). Here that condition is read back to the text. A TextRank word is a
token, an n-gram joins two or three tokens, and a hyphenated compound, a CamelCase identifier and
a capitalized phrase open with a letter; only the body of a `"..."` span can be all whitespace.

So `process` raises exactly when the text has at least ten tokens and some line holds a quoted
span, as the left-to-right scan of `"([^"]{3,40})"` finds it, whose three to forty characters are
all whitespace (`process_eq_error_iff_blankQuote`). Such a body always passes the quoted-term
filter, and always enters the pool.

Two facts of Python's Unicode table are needed, and are the fields of `TableFacts`: lowering a
string with a non-whitespace character leaves one, and no whitespace character is a digit. They
are not fields of `UnicodeDb`, since nothing else reads them.
-/

namespace Plexus

/-- The facts of the Unicode table that the failure of `process` depends on. -/
structure TableFacts (db : UnicodeDb) : Prop where
  /-- `str.lower` keeps some non-whitespace character of a string that has one. -/
  lower_keeps_text : ∀ s : Str, (∃ c ∈ s, isSpace c = false) → ∃ c ∈ db.lower s, isSpace c = false
  /-- `str.isdigit` is false on whitespace. -/
  isDigit_of_isSpace : ∀ c, isSpace c → db.isDigit c = false

theorem isSpace_eq_false_of_letter {c : Char} (h : isLowerAscii c ∨ isUpperAscii c) :
    isSpace c = false := by
  cases hs : isSpace c
  · rfl
  · simp [isLowerAscii_of_isSpace hs, isUpperAscii_of_isSpace hs] at h

/-- The ASCII table has both facts. -/
theorem tableFacts_ascii : TableFacts .ascii where
  lower_keeps_text _ := fun ⟨c, hc, hsp⟩ ↦ ⟨c.toLower, List.mem_map_of_mem _ hc, by
    cases hup : isUpperAscii c
    · rwa [toLower_eq_self hup]
    · exact isSpace_eq_false_of_letter (.inl (isLowerAscii_toLower (.inr hup)))⟩
  isDigit_of_isSpace c h := by
    have := toNat_of_isSpace h
    simp only [UnicodeDb.ascii, isDigitAscii, decide_eq_false_iff_not]
    omega

/-- A line of the text holds a quoted span whose body is whitespace only. -/
def BlankQuote (text : Str) : Prop :=
  ∃ line ∈ strSplitLines text, ∃ span ∈ quotePattern.findall line,
    ∀ c ∈ (span.drop 1).dropLast, isSpace c

instance : DecidablePred BlankQuote := fun text ↦
  inferInstanceAs (Decidable (∃ line ∈ strSplitLines text, ∃ span ∈ quotePattern.findall line,
    ∀ c ∈ (span.drop 1).dropLast, isSpace c))

section Failure

variable {db : UnicodeDb}

/-! ## No other pooled term is wordless -/

/-- A match of a pattern that opens only on a letter starts with a letter. -/
theorem exists_letter_head {σ : Type} (P : Pattern σ)
    (hstart : ∀ next, P.accept P.start next = false)
    (hopen : ∀ c q, P.step P.start c = some q → isLowerAscii c ∨ isUpperAscii c) {s m : Str}
    (h : m ∈ P.findall s) : ∃ c cs, m = c :: cs ∧ (isLowerAscii c ∨ isUpperAscii c) := by
  obtain ⟨c, cs, q, rfl, hq⟩ := P.exists_step_start_of_mem_scan hstart h
  exact ⟨c, cs, rfl, hopen c q hq⟩

/-- **Compounds.** A compound of a line is the body of a quoted span of the line, all whitespace,
or has a non-whitespace character. -/
theorem blank_or_text_of_mem_lineCompounds {line ct : Str} (h : ct ∈ lineCompounds db line) :
    (∃ span ∈ quotePattern.findall line, ct = (span.drop 1).dropLast ∧ ∀ c ∈ ct, isSpace c) ∨
      ∃ c ∈ ct, isSpace c = false := by
  simp only [lineCompounds, List.mem_append] at h
  rcases h with ((h | h) | h) | h
  case inl.inl.inl =>
    obtain ⟨m, hm, hct⟩ := List.mem_filterMap.mp h
    split_ifs at hct
    cases hct
    obtain ⟨c, cs, rfl, hc⟩ := exists_letter_head _ (fun _ ↦ rfl) (fun c q hq ↦ by
      simp only [hyphenPattern] at hq
      split_ifs at hq with hc
      exact .inl hc) hm
    have hne : c ≠ '-' := by rintro rfl; simp [isLowerAscii, isUpperAscii] at hc
    exact .inr ⟨c, by simp [dehyphen, hne], isSpace_eq_false_of_letter hc⟩
  case inl.inl.inr =>
    obtain ⟨c, cs, rfl, hc⟩ :=
      exists_letter_head _ (fun _ ↦ rfl) (fun _ _ ↦ isLetter_of_camelPattern_step) h
    exact .inr ⟨c, List.mem_cons_self c cs, isSpace_eq_false_of_letter hc⟩
  case inl.inr =>
    obtain ⟨c, cs, rfl, hc⟩ := exists_letter_head _ (fun _ ↦ rfl) (fun c q hq ↦ by
      simp only [phrasePattern] at hq
      split_ifs at hq with hc
      exact .inr hc) (List.mem_filter.mp h).1
    exact .inr ⟨c, List.mem_cons_self c cs, isSpace_eq_false_of_letter hc⟩
  case inr =>
    obtain ⟨span, hspan, hct⟩ := List.mem_filterMap.mp h
    dsimp only at hct
    split_ifs at hct
    cases hct
    by_cases hall : ∀ c ∈ (span.drop 1).dropLast, isSpace c
    · exact .inl ⟨span, hspan, rfl, hall⟩
    · push_neg at hall
      obtain ⟨c, hc, hsp⟩ := hall
      exact .inr ⟨c, hc, by simpa using hsp⟩

/-- An n-gram has `n` words. -/
theorem strSplit_ne_nil_of_mem_ngrams {text x : Str} {n : ℕ} (hn : 0 < n)
    (h : x ∈ extractNgramsFromParagraphs (tokenizeByParagraph db text) n) : strSplit x ≠ [] := by
  obtain ⟨tokens, htok, i, hi, rfl⟩ := mem_extractNgramsFromParagraphs h
  obtain ⟨p, -, rfl⟩ := mem_tokenizeByParagraph htok
  rw [strSplit_strJoin_tokens fun tok htok ↦ List.mem_of_mem_drop (List.mem_of_mem_take htok)]
  exact List.ne_nil_of_length_pos (by simp only [List.length_take, List.length_drop]; omega)

/-- A wordless pooled term is the body of a blank quoted span. -/
theorem blankQuote_of_wordless (hdb : TableFacts db) {ord : SetOrder} {text : Str}
    (h : ∃ x ∈ candidateSeq db (textrank ord (tokenize db text) 5 (85 / 100) 30)
      (extractCompoundTerms db text) (tokenizeByParagraph db text), strSplit x = []) :
    BlankQuote text := by
  obtain ⟨x, hx, hnil⟩ := h
  rcases mem_candidateSeq hx with htr | h2 | h3 | ⟨ct, hct, rfl⟩
  · rw [strSplit_of_mem_tokenize (mem_tokens_of_mem_textrank htr)] at hnil
    cases hnil
  · exact absurd hnil (strSplit_ne_nil_of_mem_ngrams two_pos h2)
  · exact absurd hnil (strSplit_ne_nil_of_mem_ngrams three_pos h3)
  · obtain ⟨line, hline, hct⟩ := List.mem_flatMap.mp hct
    rcases blank_or_text_of_mem_lineCompounds hct with ⟨span, hspan, rfl, hblank⟩ | htext
    · exact ⟨line, hline, span, hspan, hblank⟩
    · obtain ⟨c, hc, hsp⟩ := hdb.lower_keeps_text ct htext
      simp [strSplit_eq_nil_iff.mp hnil c hc] at hsp

/-! ## A blank quoted span is pooled -/

/-- The body of a blank quoted span passes the quoted-term filter: it opens with whitespace, not
a digit, and has no words. -/
theorem mem_quotedTerms_of_blank (hdb : TableFacts db) {line span : Str}
    (hspan : span ∈ quotePattern.findall line) (hblank : ∀ c ∈ (span.drop 1).dropLast, isSpace c) :
    (span.drop 1).dropLast ∈ quotedTerms db line := by
  refine List.mem_filterMap.mpr ⟨span, hspan, if_pos ?_⟩
  rw [strSplit_eq_nil_iff.mpr hblank]
  cases hb : (span.drop 1).dropLast with
  | nil => rfl
  | cons c cs => simp [hdb.isDigit_of_isSpace c (hblank c (hb ▸ List.mem_cons_self c cs))]

/-- The body of a blank quoted span is a pooled term with no words. -/
theorem wordless_of_blankQuote (hdb : TableFacts db) {trScores : List (Str × ℚ)}
    {paragraphTokens : List (List Str)} {text : Str} (h : BlankQuote text) :
    ∃ x ∈ candidateSeq db trScores (extractCompoundTerms db text) paragraphTokens,
      strSplit x = [] := by
  obtain ⟨line, hline, span, hspan, hblank⟩ := h
  have hct : (span.drop 1).dropLast ∈ extractCompoundTerms db text :=
    List.mem_flatMap.mpr ⟨line, hline,
      List.mem_append_right _ (mem_quotedTerms_of_blank hdb hspan hblank)⟩
  have hnl : '\n' ∉ (span.drop 1).dropLast := fun hc ↦
    newline_not_mem_of_mem_strSplitLines hline ((quoteBody_infix_line hspan).subset hc)
  have hlow := db.lower_of_forall_isSpace hblank
  refine ⟨db.lower ((span.drop 1).dropLast),
    List.mem_append_right _ (List.mem_filter.mpr ⟨List.mem_map_of_mem _ hct, ?_⟩), ?_⟩
  · rw [hlow]
    exact decide_eq_true hnl
  · rw [hlow]
    exact strSplit_eq_nil_iff.mpr hblank

/-! ## When `process` raises -/

/-- The pool of `process` holds a term with no words exactly when the text has a blank quoted
span. -/
theorem exists_wordless_iff_blankQuote (hdb : TableFacts db) (ord : SetOrder) (text : Str) :
    (∃ x ∈ candidateSeq db (textrank ord (tokenize db text) 5 (85 / 100) 30)
      (extractCompoundTerms db text) (tokenizeByParagraph db text), strSplit x = []) ↔
      BlankQuote text :=
  ⟨blankQuote_of_wordless hdb, wordless_of_blankQuote hdb⟩

/-- **Failure, read off the text.** `process` raises exactly when the text has at least ten tokens
and a line holds a quoted span of whitespace, and it then raises `ZeroDivisionError`. -/
theorem process_eq_error_iff_blankQuote (hdb : TableFacts db) (ord : SetOrder) (text : Str)
    (e : PyError) :
    process db ord text = .error e ↔
      e = .zeroDivisionError ∧ 10 ≤ (tokenize db text).length ∧ BlankQuote text := by
  rw [process_eq_error_iff, exists_wordless_iff_blankQuote hdb]

/-- A blank quoted span after ten tokens, on a line of its own words, makes `process` raise. -/
theorem process_raises_on_quoted_blank :
    process .ascii .firstSeen "the the the the the the the the the the\nsay \"    \" twice".toList
      = .error .zeroDivisionError :=
  (process_eq_error_iff_blankQuote tableFacts_ascii _ _ _).mpr ⟨rfl, by decide, by decide⟩

end Failure

end Plexus
