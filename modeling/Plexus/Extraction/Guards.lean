import Plexus.Extraction.Ranked
import Plexus.Extraction.Tokens

/-!
# Three guards that never fire

The extraction script checks three things that its own construction already rules out.

* `extract_ngrams_from_paragraphs` skips a gram whose first or last word is a stopword, and then
  a gram whose words are all stopwords. For `n ≥ 1` the second test never rejects a gram the
  first let through: its first word is not a stopword. The test can be deleted without changing
  the n-grams, their order or their counts (`extractNgramsFromParagraphs_boundary_only`).
* `merge_and_rank` adds a compound to the pool only `if '\n' not in ct_lower`. The compounds come
  from `text.split('\n')`, one line at a time, and every pattern match is a piece of its line (or
  of the lowered line), so no compound holds a newline. As long as `str.lower` makes no newline,
  which Python's table does not, every compound enters the pool (`candidateSeq_compounds`).
* `merge_and_rank` adds a TextRank word to the pool only if it is not a stopword, not a generic
  term and longer than two characters. In `process` the TextRank vocabulary is the tokens left
  after removing stopwords and generic terms, and a token has at least three characters, so every
  TextRank word passes; each is also a key of the TF table, so `set(tr_scores.keys())` adds
  nothing to the candidates `process` boosts (`textrank_keys_guard`).
-/

namespace Plexus

/-! ## The all-stopwords test of the n-grams -/

/-- **The all-stopwords test is dead.** For `n ≥ 1`, `extract_ngrams_from_paragraphs` returns the
same list when the `all(w in STOPWORDS for w in gram)` test is removed. -/
theorem extractNgramsFromParagraphs_boundary_only (pts : List (List Str)) {n : ℕ} (hn : 0 < n) :
    extractNgramsFromParagraphs pts n = pts.flatMap fun tokens ↦
      (List.range (tokens.length + 1 - n)).filterMap fun i ↦
        if ((tokens.drop i).take n).head?.any (· ∈ stopwords) ||
            ((tokens.drop i).take n).getLast?.any (· ∈ stopwords) then none
        else some (strJoin ((tokens.drop i).take n)) := by
  unfold extractNgramsFromParagraphs
  congr 1
  funext tokens
  refine List.filterMap_congr fun i hi ↦ ?_
  have hlen : ((tokens.drop i).take n).length = n := by
    rw [List.length_take, List.length_drop]
    have := List.mem_range.mp hi
    omega
  obtain ⟨g, gs, hg⟩ := List.exists_cons_of_ne_nil (List.ne_nil_of_length_pos (hlen ▸ hn))
  dsimp only
  rw [hg]
  split_ifs with hbound hall
  · rfl
  · simp only [List.head?_cons, Option.any_some, Bool.or_eq_true, decide_eq_true_eq,
      not_or] at hbound
    simp only [List.all_cons, Bool.and_eq_true, decide_eq_true_eq] at hall
    exact absurd hall.1 hbound.1
  · rfl

/-- Two paragraphs give the one bigram `zeta data`: `the zeta` and `more data` open with a
stopword. -/
theorem extractNgramsFromParagraphs_two_paragraphs :
    extractNgramsFromParagraphs [["the".toList, "zeta".toList, "data".toList],
        ["more".toList, "data".toList]] 2 =
      [["the".toList, "zeta".toList, "data".toList], ["more".toList, "data".toList]].flatMap
        fun tokens ↦ (List.range (tokens.length + 1 - 2)).filterMap fun i ↦
          if ((tokens.drop i).take 2).head?.any (· ∈ stopwords) ||
              ((tokens.drop i).take 2).getLast?.any (· ∈ stopwords) then none
          else some (strJoin ((tokens.drop i).take 2)) :=
  extractNgramsFromParagraphs_boundary_only _ (by decide)

/-! ## The newline test of the compounds -/

section Newline

variable (db : UnicodeDb)

/-- What the newline test relies on of `str.lower`: it makes no newline. -/
def LowerKeepsNewlineFree : Prop := ∀ s : Str, '\n' ∉ s → '\n' ∉ db.lower s

/-- The ASCII table makes no newline: lowering only moves `A`–`Z`. -/
theorem lowerKeepsNewlineFree_ascii : LowerKeepsNewlineFree .ascii := by
  intro s hs h
  obtain ⟨c, hc, hlow⟩ := List.mem_map.mp h
  have h10 : c.toLower.toNat = 10 := by rw [hlow]; rfl
  rw [toNat_toLower] at h10
  have hup : isUpperAscii c = false := by
    simp only [isUpperAscii, decide_eq_false_iff_not]
    intro hu
    rw [if_pos hu] at h10
    omega
  exact hs ((toLower_eq_self hup).symm.trans hlow ▸ hc)

variable {db}

theorem newline_not_mem_dehyphen {term : Str} (h : '\n' ∉ term) : '\n' ∉ dehyphen term := by
  intro hd
  obtain ⟨c, hc, hce⟩ := List.mem_map.mp hd
  split_ifs at hce with hdash
  · cases hce
  · exact h (hce ▸ hc)

/-- The body of a quoted span is a piece of its line. -/
theorem quoteBody_infix_line {line span : Str} (h : span ∈ quotePattern.findall line) :
    (span.drop 1).dropLast <:+: line :=
  ((List.dropLast_prefix _).isInfix.trans (List.drop_suffix _ _).isInfix).trans
    (Pattern.infix_of_mem_scan _ h)

/-- A compound of a line without a newline holds no newline. -/
theorem newline_not_mem_of_mem_lineCompounds (hdb : LowerKeepsNewlineFree db) {line ct : Str}
    (hline : '\n' ∉ line) (h : ct ∈ lineCompounds db line) : '\n' ∉ ct := by
  have hpiece : ∀ {s : Str}, ct <:+: s → '\n' ∉ s → '\n' ∉ ct := fun hs hn hc ↦ hn (hs.subset hc)
  simp only [lineCompounds, List.mem_append] at h
  rcases h with ((h | h) | h) | h
  case inl.inl.inl =>
    obtain ⟨term, hterm, hct⟩ := List.mem_filterMap.mp h
    split_ifs at hct
    cases hct
    exact newline_not_mem_dehyphen
      (fun hc ↦ hdb line hline ((Pattern.infix_of_mem_scan _ hterm).subset hc))
  case inl.inl.inr => exact hpiece (Pattern.infix_of_mem_scan _ h) hline
  case inl.inr => exact hpiece (Pattern.infix_of_mem_scan _ (List.mem_filter.mp h).1) hline
  case inr =>
    obtain ⟨span, hspan, hct⟩ := List.mem_filterMap.mp h
    dsimp only at hct
    split_ifs at hct
    cases hct
    exact hpiece (quoteBody_infix_line hspan) hline

/-- **The newline test is dead.** The compounds of a text enter the pool of `merge_and_rank`, all
of them, lowercased and in order, after the TextRank words and the n-grams. -/
theorem candidateSeq_compounds (hdb : LowerKeepsNewlineFree db) (trScores : List (Str × ℚ))
    (text : Str) (paragraphTokens : List (List Str)) :
    candidateSeq db trScores (extractCompoundTerms db text) paragraphTokens =
      candidateSeq db trScores [] paragraphTokens ++
        (extractCompoundTerms db text).map db.lower := by
  simp only [candidateSeq, List.map_nil, List.filter_nil, List.append_nil]
  congr 1
  refine List.filter_eq_self.mpr fun ct hct ↦ ?_
  obtain ⟨c, hc, rfl⟩ := List.mem_map.mp hct
  obtain ⟨line, hline, hc⟩ := List.mem_flatMap.mp hc
  simpa using hdb c (newline_not_mem_of_mem_lineCompounds hdb
    (newline_not_mem_of_mem_strSplitLines hline) hc)

/-- A hyphenated compound and a quoted one both reach the pool. -/
theorem candidateSeq_compounds_ascii :
    candidateSeq .ascii []
        (extractCompoundTerms .ascii "cross-dimensional \"Seed Promotion\"".toList) [] =
      candidateSeq .ascii [] [] [] ++
          (extractCompoundTerms .ascii "cross-dimensional \"Seed Promotion\"".toList).map
            UnicodeDb.ascii.lower :=
  candidateSeq_compounds lowerKeepsNewlineFree_ascii _ _ _

end Newline

/-! ## The unigram test of the pool -/

section Unigrams

variable {db : UnicodeDb}

/-- **The unigram test is dead.** In `process`, `merge_and_rank` keeps every TextRank word, and
every TextRank word is a key of the TF table. -/
theorem textrank_keys_guard (ord : SetOrder) (text : Str) (window : ℕ) (damping : ℚ)
    (iterations : ℕ) :
    ((textrank ord (tokenize db text) window damping iterations).map Prod.fst).filter
        (fun term ↦ isContentWord term && 2 < term.length)
      = (textrank ord (tokenize db text) window damping iterations).map Prod.fst ∧
      ∀ w ∈ (textrank ord (tokenize db text) window damping iterations).map Prod.fst,
        w ∈ (computeTf ((tokenize db text).filter isContentWord)).map Prod.fst := by
  refine ⟨List.filter_eq_self.mpr fun w hw ↦ ?_, fun w hw ↦ by
    rw [keys_computeTf]
    exact mem_firstOccurrences.mpr (mem_content_of_mem_textrank hw)⟩
  obtain ⟨htok, hcw⟩ := List.mem_filter.mp (mem_content_of_mem_textrank hw)
  simp only [hcw, Bool.true_and, decide_eq_true_eq]
  exact (TokenShape.of_mem_scan htok).three_le_length

end Unigrams

end Plexus
