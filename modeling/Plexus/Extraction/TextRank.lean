import Plexus.Python.Collections
import Plexus.Extraction.Stopwords

/-!
# TextRank

`textrank(tokens, window=5, damping=0.85, iterations=30)` of the extraction script. The filtered
tokens are numbered through `list(set(filtered))`; a nested loop over every pair of positions less
than `window` apart records each co-occurrence of two distinct words in a dict keyed by index
pairs, once in each direction; out-degrees are the summed weights leaving each index; and a
PageRank update runs a fixed number of times, skipping sources of out-degree zero.

Two orders are left open. The vocabulary order is that of a Python set (a `SetOrder`), and the
order in which the items of `cooccur` are read is a `DictOrder`: Python reads a dict in insertion
order, and the statements about `textrankWith` range over every reordering.
-/

namespace Plexus

/-- `t not in STOPWORDS and t not in GENERIC_TERMS`. -/
def isContentWord (t : Str) : Bool := decide (t ∉ stopwords) && decide (t ∉ genericTerms)

/-- `word_to_idx[w]`, for `word_to_idx = {w: i for i, w in enumerate(vocab)}` over a vocabulary
without repeats: the position of `w` in `vocab`. -/
def wordIndex : List Str → Str → ℕ
  | [], _ => 0
  | v :: vocab, w => if v = w then 0 else wordIndex vocab w + 1

theorem wordIndex_lt {vocab : List Str} {w : Str} (h : w ∈ vocab) :
    wordIndex vocab w < vocab.length := by
  induction vocab with
  | nil => simp at h
  | cons v vocab ih =>
    by_cases hv : v = w
    · simp [wordIndex, hv]
    · simp only [wordIndex, hv, if_false, List.length_cons, Nat.add_lt_add_iff_right]
      exact ih (by simpa [Ne.symm hv] using h)

theorem getD_wordIndex {vocab : List Str} {w : Str} (h : w ∈ vocab) :
    vocab.getD (wordIndex vocab w) [] = w := by
  induction vocab with
  | nil => simp at h
  | cons v vocab ih =>
    by_cases hv : v = w
    · simp [wordIndex, hv]
    · simpa [wordIndex, hv] using ih (by simpa [Ne.symm hv] using h)

theorem wordIndex_inj {vocab : List Str} {a b : Str} (ha : a ∈ vocab) (hb : b ∈ vocab) :
    wordIndex vocab a = wordIndex vocab b ↔ a = b :=
  ⟨fun h ↦ by rw [← getD_wordIndex ha, ← getD_wordIndex hb, h], fun h ↦ h ▸ rfl⟩

theorem wordIndex_of_not_mem {vocab : List Str} {w : Str} (h : w ∉ vocab) :
    wordIndex vocab w = vocab.length := by
  induction vocab with
  | nil => rfl
  | cons v vocab ih =>
    obtain ⟨hv, hw⟩ : v ≠ w ∧ w ∉ vocab := by simpa [eq_comm] using h
    simp [wordIndex, hv, ih hw]

/-- A word of the vocabulary shares its index with no other word, in the vocabulary or not. -/
theorem wordIndex_eq_iff {vocab : List Str} {x a : Str} (hx : x ∈ vocab) :
    wordIndex vocab x = wordIndex vocab a ↔ x = a := by
  by_cases ha : a ∈ vocab
  · exact wordIndex_inj hx ha
  · rw [wordIndex_of_not_mem ha]
    exact ⟨fun h ↦ absurd h (wordIndex_lt hx).ne, fun h ↦ absurd (h ▸ hx) ha⟩

theorem wordIndex_getElem {vocab : List Str} (h : vocab.Nodup) {i : ℕ} (hi : i < vocab.length) :
    wordIndex vocab vocab[i] = i := by
  induction vocab generalizing i with
  | nil => simp at hi
  | cons v vocab ih =>
    cases i with
    | zero => simp [wordIndex]
    | succ i =>
      have hi' : i < vocab.length := by simpa using hi
      have hne : v ≠ vocab[i] := fun he ↦ (List.nodup_cons.mp h).1 (he ▸ List.getElem_mem hi')
      simp [wordIndex, hne, ih (List.nodup_cons.mp h).2 hi']

/-- The index pairs the nested loop of `textrank` visits:
`for i in range(n): for j in range(i + 1, min(i + window, n))`. -/
def windowPairs (window n : ℕ) : List (ℕ × ℕ) :=
  (List.range n).flatMap fun i ↦ (List.range' (i + 1) (min (i + window) n - (i + 1))).map (i, ·)

/-- The body of the nested loop at positions `(i, j)`: if the two words differ, one more on the
key `(word_to_idx[w1], word_to_idx[w2])` and one more on the reversed key. -/
def cooccurStep (wordToIdx : Str → ℕ) (filtered : List Str) (cooccur : List ((ℕ × ℕ) × ℚ))
    (ij : ℕ × ℕ) : List ((ℕ × ℕ) × ℚ) :=
  let w₁ := filtered.getD ij.1 []
  let w₂ := filtered.getD ij.2 []
  if w₁ ≠ w₂ then
    dictAdd (dictAdd cooccur (wordToIdx w₁, wordToIdx w₂) 1) (wordToIdx w₂, wordToIdx w₁) 1
  else cooccur

/-- `cooccur`, filled by the nested loop. -/
def cooccurrence (wordToIdx : Str → ℕ) (filtered : List Str) (window : ℕ) :
    List ((ℕ × ℕ) × ℚ) :=
  (windowPairs window filtered.length).foldl (cooccurStep wordToIdx filtered) []

/-- `out_degree`: `out_degree[src] += weight` over the items of `cooccur`. -/
def outDegree (n : ℕ) (items : List ((ℕ × ℕ) × ℚ)) : List ℚ :=
  items.foldl (fun od kv ↦ od.modify (· + kv.2) kv.1.1) (List.replicate n 0)

/-- One iteration: `new_scores[tgt] += damping * scores[src] * weight / out_degree[src]` over the
items of `cooccur`, for sources of positive out-degree, from `(1 - damping) / n` everywhere. -/
def rankStep (n : ℕ) (damping : ℚ) (items : List ((ℕ × ℕ) × ℚ)) (od scores : List ℚ) :
    List ℚ :=
  items.foldl (fun ns kv ↦
    if 0 < od.getD kv.1.1 0 then
      ns.modify (· + damping * scores.getD kv.1.1 0 * kv.2 / od.getD kv.1.1 0) kv.1.2
    else ns) (List.replicate n ((1 - damping) / n))

/-- The rank iteration on a numbered vocabulary and the co-occurrence items in reading order:
`iterations` updates from `1 / n` everywhere, then `{vocab[i]: scores[i] for i in range(n)}`. -/
def rankVocab (vocab : List Str) (items : List ((ℕ × ℕ) × ℚ)) (damping : ℚ) (iterations : ℕ) :
    List (Str × ℚ) :=
  let n := vocab.length
  let od := outDegree n items
  vocab.zip ((rankStep n damping items od)^[iterations] (List.replicate n (1 / n)))

/-- `textrank`, with the items of `cooccur` read in the order `itemOrder` puts them in. -/
def textrankWith (ord : SetOrder) (itemOrder : DictOrder ((ℕ × ℕ) × ℚ))
    (tokens : List Str) (window : ℕ) (damping : ℚ) (iterations : ℕ) : List (Str × ℚ) :=
  let filtered := tokens.filter isContentWord
  if filtered.length < 3 then []
  else
    let vocab := ord.enum filtered
    rankVocab vocab (itemOrder.reorder (cooccurrence (wordIndex vocab) filtered window)) damping
      iterations

/-- `textrank(tokens, window, damping, iterations)`: Python reads `cooccur` in insertion order. -/
def textrank (ord : SetOrder) (tokens : List Str) (window : ℕ) (damping : ℚ)
    (iterations : ℕ) : List (Str × ℚ) :=
  textrankWith ord .insertion tokens window damping iterations

end Plexus
