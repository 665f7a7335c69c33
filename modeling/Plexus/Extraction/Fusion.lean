import Plexus.Extraction.Compound
import Plexus.Extraction.TextRank
import Mathlib.Data.List.Sort
import Mathlib.Data.Rat.Floor

/-!
# Fusion

`compute_tf`, `compute_positional_boost`, `merge_and_rank` and `process` of the extraction
script: the four signals (term frequency, TextRank, paragraph n-grams and compound patterns) are
pooled into the set `all_terms`, each pooled term is scored, a post-filter drops self-duplicating
and stopword-bounded terms, and the survivors are sorted by score, highest first, and cut to
`max_terms`.

## Failure

Python raises where the script divides by `len(words)` for a pooled term with no words, and where
it reads `words[0]` of one. `scoreTerm` and `keepTerm` return these exceptions as `PyError`s; every
other step of the pipeline is total.

## Orders

`process` enumerates three sets: `set(filtered)` inside `textrank`, the pool `all_terms`, and the
candidates it passes to `compute_positional_boost`. In one Python process the iteration order of a
set is a function of what was inserted, in which order, under the hash seed of the process: one
`SetOrder` serves all three. The boost table is only read through `.get`, so the order of its
candidates is immaterial.

Scores are exact rationals: `0.3` is `3 / 10`, and `round(score, 4)` is `round4`.
-/

namespace Plexus

variable (db : UnicodeDb)

/-! ## Term frequency -/

/-- `compute_tf(tokens)`: each distinct token's count over the largest count, in order of first
occurrence; `{}` for no tokens. -/
def computeTf (tokens : List Str) : List (Str × ℚ) :=
  let counts := counter tokens
  if counts.isEmpty then []
  else
    let maxFreq := (counts.map Prod.snd).foldr max 0
    counts.map fun kv ↦ (kv.1, (kv.2 : ℚ) / maxFreq)

/-! ## Positional boost -/

/-- What the line loop of `compute_positional_boost` has gathered: the tokens of header lines, the
tokens of the lines before the first blank line, and whether that line has been passed. -/
structure BoostScan where
  headerTerms : List Str
  firstParaTerms : List Str
  inFirstPara : Bool

/-- One line of the loop: a stripped line starting with `#` is a header; the first blank line ends
the first paragraph; any other line before it belongs to the first paragraph. -/
def boostScanLine (s : BoostScan) (line : Str) : BoostScan :=
  let stripped := strStrip line
  if stripped.head? = some '#' then { s with headerTerms := s.headerTerms ++ tokenize db stripped }
  else if stripped = [] ∧ s.inFirstPara then { s with inFirstPara := false }
  else if s.inFirstPara then
    { s with firstParaTerms := s.firstParaTerms ++ tokenize db stripped }
  else s

/-- The boost of one term: `1.0`, plus `0.3` if one of its words is a header token, plus `0.1` if
one is a token of the first paragraph. -/
def boostOf (s : BoostScan) (term : Str) : ℚ :=
  let words := strSplit term
  1 + (if words.any (· ∈ s.headerTerms) then 3 / 10 else 0) +
    (if words.any (· ∈ s.firstParaTerms) then 1 / 10 else 0)

/-- The line loop of `compute_positional_boost` over `text.split('\n')`. -/
def boostScan (text : Str) : BoostScan :=
  (strSplitLines text).foldl (boostScanLine db) ⟨[], [], true⟩

/-- `compute_positional_boost(text, terms)`. -/
def computePositionalBoost (text : Str) (terms : List Str) : List (Str × ℚ) :=
  let scan := boostScan db text
  terms.map fun term ↦ (term, boostOf scan term)

/-- A term gets its boost if it is one of the `terms`, and `positional_boosts.get(term, 1.0)` is
`1` otherwise. -/
theorem dictGet_computePositionalBoost (text : Str) (terms : List Str) (term : Str) :
    dictGet (computePositionalBoost db text terms) term 1
      = if term ∈ terms then boostOf (boostScan db text) term else 1 := by
  rw [computePositionalBoost, dictGet_map_pair]
  split_ifs <;> rfl

/-! ## The candidate pool -/

/-- The exceptions Python raises in `merge_and_rank`: `ZeroDivisionError: division by zero` and
`IndexError: list index out of range`. -/
inductive PyError
  | zeroDivisionError
  | indexError
  deriving DecidableEq, Repr

instance instDecidableEqExcept {ε α : Type} [DecidableEq ε] [DecidableEq α] :
    DecidableEq (Except ε α)
  | .error a, .error b => decidable_of_iff (a = b) (by simp)
  | .ok a, .ok b => decidable_of_iff (a = b) (by simp)
  | .error _, .ok _ => isFalse (by simp)
  | .ok _, .error _ => isFalse (by simp)

@[simp] theorem ok_bind {ε α β : Type} (a : α) (f : α → Except ε β) :
    (Except.ok a >>= f) = f a := rfl

@[simp] theorem error_bind {ε α β : Type} (e : ε) (f : α → Except ε β) :
    (Except.error e >>= f) = Except.error e := rfl

/-- `sum(scores.get(w, 0) for w in words)`. -/
def scoreSum (scores : List (Str × ℚ)) (words : List Str) : ℚ :=
  (words.map fun w ↦ dictGet scores w 0).sum

/-- The additions to `all_terms`, in the order `merge_and_rank` makes them: the TextRank words
that are content words longer than two characters; the paragraph bigrams seen twice or holding
TextRank mass over `0.01`, and the trigrams seen twice, unless every word is a stopword or a
generic term; and the lowercased compounds without a newline. -/
def candidateSeq (trScores : List (Str × ℚ)) (compoundTerms : List Str)
    (paragraphTokens : List (List Str)) : List Str :=
  let bigrams := extractNgramsFromParagraphs paragraphTokens 2
  let trigrams := extractNgramsFromParagraphs paragraphTokens 3
  ((trScores.map Prod.fst).filter fun term ↦ isContentWord term && 2 < term.length) ++
    ((counter bigrams).filter fun kv ↦
      (2 ≤ kv.2 || 1 / 100 < scoreSum trScores (strSplit kv.1)) &&
        (strSplit kv.1).any isContentWord).map Prod.fst ++
    ((counter trigrams).filter fun kv ↦
      2 ≤ kv.2 && (strSplit kv.1).any isContentWord).map Prod.fst ++
    ((compoundTerms.map db.lower).filter fun ct ↦ '\n' ∉ ct)

/-! ## Scores -/

/-- The tables the score of a pooled term reads. -/
structure ScoreTables where
  tfScores : List (Str × ℚ)
  trScores : List (Str × ℚ)
  bigramCounts : List (Str × ℕ)
  trigramCounts : List (Str × ℕ)
  bigramTotal : ℕ
  trigramTotal : ℕ
  positionalBoosts : List (Str × ℚ)

/-- The tables of `merge_and_rank`: the signals it is given, and the counts of the paragraph
bigrams and trigrams. -/
def scoreTables (tfScores trScores positionalBoosts : List (Str × ℚ))
    (paragraphTokens : List (List Str)) : ScoreTables :=
  let bigrams := extractNgramsFromParagraphs paragraphTokens 2
  let trigrams := extractNgramsFromParagraphs paragraphTokens 3
  ⟨tfScores, trScores, counter bigrams, counter trigrams, bigrams.length, trigrams.length,
    positionalBoosts⟩

/-- The score of a term with at least one word: the mean TF of its words, the summed TextRank of
its words and its own frequency, weighted `0.3 / 0.4 / 0.3`, times the length bonus
`1.0 + 0.2 * (len(words) - 1)` and the positional boost. -/
def termScore (t : ScoreTables) (term : Str) : ℚ :=
  let words := strSplit term
  let tfComponent := scoreSum t.tfScores words / words.length
  let trComponent := scoreSum t.trScores words
  let freqComponent :=
    if words.length = 1 then dictGet t.tfScores term 0
    else if words.length = 2 then
      ((dictGet t.bigramCounts term 0 : ℕ) : ℚ) / (max t.bigramTotal 1 : ℕ)
    else ((dictGet t.trigramCounts term 0 : ℕ) : ℚ) / (max t.trigramTotal 1 : ℕ)
  let lengthBonus := 1 + 2 / 10 * ((words.length : ℚ) - 1)
  let posBoost := dictGet t.positionalBoosts term 1
  (tfComponent * (3 / 10) + trComponent * (4 / 10) + freqComponent * (3 / 10)) * lengthBonus *
    posBoost

/-- Scoring one pooled term: `sum(...) / len(words)` raises for a term with no words. -/
def scoreTerm (t : ScoreTables) (term : Str) : Except PyError (Str × ℚ) :=
  if (strSplit term).length = 0 then .error .zeroDivisionError else .ok (term, termScore t term)

/-- The post-filter on one term: self-duplicating n-grams are dropped, then terms with a stopword
at either end; `words[0]` raises for a term with no words. -/
def keepTerm (term : Str) : Except PyError Bool :=
  let words := strSplit term
  if 1 < words.length ∧ (firstOccurrences words).length < words.length then .ok false
  else
    match words with
    | [] => .error .indexError
    | w₀ :: rest =>
      .ok (decide (w₀ ∉ stopwords) && decide ((w₀ :: rest).getLast (by simp) ∉ stopwords))

/-- The post-filter loop over the scored items. -/
def postFilter : List (Str × ℚ) → Except PyError (List (Str × ℚ))
  | [] => .ok []
  | kv :: rest => do
    let keep ← keepTerm kv.1
    let kept ← postFilter rest
    return if keep then kv :: kept else kept

/-- `sorted(filtered.items(), key=lambda x: -x[1])[:max_terms]`: Python's sort is stable, so items
of equal score keep their order. -/
def rankItems (items : List (Str × ℚ)) (maxTerms : ℕ) : List (Str × ℚ) :=
  (items.insertionSort fun a b ↦ b.2 ≤ a.2).take maxTerms

/-- `merge_and_rank(tf_scores, textrank_scores, compound_terms, positional_boosts,
paragraph_tokens, max_terms)`, with `all_terms` iterated in the order `ord` gives it. -/
def mergeAndRank (ord : SetOrder) (tfScores trScores : List (Str × ℚ)) (compoundTerms : List Str)
    (positionalBoosts : List (Str × ℚ)) (paragraphTokens : List (List Str)) (maxTerms : ℕ) :
    Except PyError (List (Str × ℚ)) := do
  let tables := scoreTables tfScores trScores positionalBoosts paragraphTokens
  let allTerms := ord.enum (candidateSeq db trScores compoundTerms paragraphTokens)
  let scored ← allTerms.mapM (scoreTerm tables)
  let filtered ← postFilter scored
  return rankItems filtered maxTerms

/-! ## What `merge_and_rank` computes -/

theorem mapM_scoreTerm (t : ScoreTables) (l : List Str) :
    l.mapM (scoreTerm t) = if ∃ x ∈ l, strSplit x = [] then .error .zeroDivisionError
      else .ok (l.map fun x ↦ (x, termScore t x)) := by
  induction l with
  | nil => rfl
  | cons x l ih =>
    rw [List.mapM_cons, ih]
    by_cases hx : strSplit x = []
    · simp [scoreTerm, hx]
    · simp only [scoreTerm, hx, List.length_eq_zero, if_false, List.mem_cons,
        exists_eq_or_imp, false_or, List.map_cons]
      split_ifs <;> rfl

/-- The post-filter raises only on a term with no words. -/
theorem keepTerm_ok {term : Str} (h : strSplit term ≠ []) : ∃ b, keepTerm term = .ok b := by
  unfold keepTerm
  dsimp only
  split_ifs
  · exact ⟨false, rfl⟩
  · split
    · contradiction
    · exact ⟨_, rfl⟩

theorem postFilter_eq (l : List (Str × ℚ)) (h : ∀ x ∈ l, strSplit x.1 ≠ []) :
    postFilter l = .ok (l.filter fun x ↦ keepTerm x.1 = .ok true) := by
  induction l with
  | nil => rfl
  | cons x l ih =>
    obtain ⟨b, hb⟩ := keepTerm_ok (h x (List.mem_cons_self x l))
    rw [postFilter, hb, ih fun y hy ↦ h y (List.mem_cons_of_mem x hy)]
    cases b <;> simp only [List.filter_cons, hb] <;> rfl

/-- **`merge_and_rank` as a function.** It raises `ZeroDivisionError` exactly when the pool holds
a term with no words; otherwise it ranks the scored pool terms that the post-filter keeps. -/
theorem mergeAndRank_eq (ord : SetOrder) (tfScores trScores : List (Str × ℚ))
    (compoundTerms : List Str) (positionalBoosts : List (Str × ℚ))
    (paragraphTokens : List (List Str)) (maxTerms : ℕ) :
    mergeAndRank db ord tfScores trScores compoundTerms positionalBoosts paragraphTokens maxTerms =
      if ∃ x ∈ candidateSeq db trScores compoundTerms paragraphTokens, strSplit x = [] then
        .error .zeroDivisionError
      else .ok (rankItems
        (((ord.enum (candidateSeq db trScores compoundTerms paragraphTokens)).map fun x ↦
          (x, termScore (scoreTables tfScores trScores positionalBoosts paragraphTokens) x)).filter
            fun x ↦ keepTerm x.1 = .ok true) maxTerms) := by
  simp only [mergeAndRank, mapM_scoreTerm, ord.mem_enum]
  split_ifs with h
  · rfl
  · push_neg at h
    rw [ok_bind, postFilter_eq _ (by simpa using fun x hx ↦ h x ((ord.mem_enum _ x).mp hx))]
    rfl

/-! ## The pipeline -/

/-- Rounding to the nearest integer, halves to even, as Python's `round` does. -/
def roundHalfEven (y : ℚ) : ℤ :=
  let f := ⌊y⌋
  if y - f < 1 / 2 then f else if 1 / 2 < y - f then f + 1 else if f % 2 = 0 then f else f + 1

/-- `round(x, 4)` on the exact value: the nearest multiple of `1 / 10000`, halves to even. -/
def round4 (x : ℚ) : ℚ := roundHalfEven (x * 10000) / 10000

/-- The `stats` of a result; the short result for fewer than ten tokens has only `token_count`. -/
structure Stats where
  tokenCount : ℕ
  uniqueTokens : Option ℕ
  textrankNodes : Option ℕ
  compoundTermsFound : Option ℕ
  deriving DecidableEq, Repr

/-- The result of `process`: `success`, `data.candidate_terms` as `(term, score)` pairs, and
`data.stats`. -/
structure Output where
  success : Bool
  candidateTerms : List (Str × ℚ)
  stats : Stats
  deriving DecidableEq, Repr

/-- `process(text)`: fewer than ten tokens give an empty result; otherwise TF over the content
tokens, TextRank with its defaults, the compounds, the positional boosts of every TF, TextRank and
compound candidate, and `merge_and_rank` with `max_terms = 25`, scores rounded to four places. -/
def process (ord : SetOrder) (text : Str) : Except PyError Output :=
  let tokens := tokenize db text
  let paragraphTokens := tokenizeByParagraph db text
  if tokens.length < 10 then .ok ⟨true, [], ⟨tokens.length, none, none, none⟩⟩
  else do
    let tfScores := computeTf (tokens.filter isContentWord)
    let trScores := textrank ord tokens 5 (85 / 100) 30
    let compounds := extractCompoundTerms db text
    let allCandidates :=
      ord.enum (tfScores.map Prod.fst ++ trScores.map Prod.fst ++ compounds.map db.lower)
    let posBoosts := computePositionalBoost db text allCandidates
    let ranked ← mergeAndRank db ord tfScores trScores compounds posBoosts paragraphTokens 25
    return ⟨true, ranked.map fun kv ↦ (kv.1, round4 kv.2),
      ⟨tokens.length, some (firstOccurrences tokens).length, some trScores.length,
        some compounds.length⟩⟩

/-! ## When `process` raises -/

/-- **Failure.** `process` raises exactly when the text has at least ten tokens and the pool of
`merge_and_rank` holds a term with no words, and then it raises `ZeroDivisionError`: the
post-filter's `words[0]` is never reached by such a term. -/
theorem process_eq_error_iff (ord : SetOrder) (text : Str) (e : PyError) :
    process db ord text = .error e ↔
      e = .zeroDivisionError ∧ 10 ≤ (tokenize db text).length ∧
        ∃ x ∈ candidateSeq db (textrank ord (tokenize db text) 5 (85 / 100) 30)
          (extractCompoundTerms db text) (tokenizeByParagraph db text), strSplit x = [] := by
  simp only [process]
  split_ifs with hlen
  · simp only [reduceCtorEq, false_iff, not_and, not_exists]
    omega
  · rw [mergeAndRank_eq]
    split_ifs with hx
    · simp only [error_bind, Except.error.injEq, hx, and_true]
      exact ⟨fun h ↦ ⟨h.symm, by omega⟩, fun h ↦ h.1.symm⟩
    · simp [hx]

/-- A quoted span of whitespace is a compound with no words, and scoring it divides by zero. -/
theorem process_blank_quote (ord : SetOrder) :
    process .ascii ord "the the the the the the the the the the \"   \"".toList
      = .error .zeroDivisionError := by
  unfold process mergeAndRank textrank textrankWith
  simp (disch := with_unfolding_all decide) only [SetOrder.enum_eq_firstOccurrences]
  with_unfolding_all decide

/-- A header word does not boost the paragraph bigram that holds it: `zeta data` scores
`(0.5 * 0.3 + 2/3 * 0.3) * 1.2 = 0.42`, with a boost table entry of `1.3` that it never reads. -/
theorem process_header_bigram_unboosted (ord : SetOrder) :
    boostOf (boostScan .ascii "# data\n\nzeta data zeta data the the the the the the".toList)
        "zeta data".toList = 13 / 10 ∧
      (process .ascii ord "# data\n\nzeta data zeta data the the the the the the".toList).map
        Output.candidateTerms = .ok [("zeta data".toList, 21 / 50)] := by
  refine ⟨by with_unfolding_all decide, ?_⟩
  unfold process mergeAndRank textrank textrankWith
  simp (disch := with_unfolding_all decide) only [SetOrder.enum_eq_firstOccurrences]
  with_unfolding_all decide

end Plexus
