import Plexus.Extraction.Candidates
import Plexus.Extraction.FusionOrder
import Plexus.Extraction.RankMass

/-!
# What `merge_and_rank` ranks

`merge_and_rank` ends with `sorted(filtered.items(), key=lambda x: -x[1])[:max_terms]`. That
line is the point of the function: it returns the best-scored terms that survive the post-filter,
best first. Here this is proved of the model for every pool, and carried to what `process`
returns.

## Main results

* `mergeAndRank_sound`: what `merge_and_rank` returns is sorted by score, at most `max_terms`
  long, and made of pool terms that the post-filter keeps, with their scores.
* `process_ranked`: for every text and set order, `process` returns at most 25 terms, in
  non-increasing order of rounded score, every score non-negative; each term has words, repeats
  none, and neither starts nor ends with a stopword.
-/

namespace Plexus

/-! ## The sort and the cut -/

/-- The cut is sorted by score, highest first. -/
theorem sorted_rankItems (items : List (Str × ℚ)) (k : ℕ) :
    (rankItems items k).Sorted (fun a b ↦ b.2 ≤ a.2) :=
  List.Pairwise.sublist (List.take_sublist _ _) (sorted_insertionSort_score items)

theorem length_rankItems (items : List (Str × ℚ)) (k : ℕ) :
    (rankItems items k).length = min k items.length := by
  rw [rankItems, List.length_take, List.length_insertionSort]

/-! ## The post-filter -/

/-- The post-filter keeps a term exactly when it has words, repeats none, and neither its first
nor its last word is a stopword. -/
theorem keepTerm_eq_ok_true_iff (term : Str) :
    keepTerm term = .ok true ↔ ∃ w ws, strSplit term = w :: ws ∧ (w :: ws).Nodup ∧
      w ∉ stopwords ∧ (w :: ws).getLast (List.cons_ne_nil w ws) ∉ stopwords := by
  unfold keepTerm
  dsimp only
  rcases h : strSplit term with _ | ⟨w, ws⟩
  · simp
  · by_cases hnd : (w :: ws).Nodup
    · rw [if_neg fun ⟨_, hlt⟩ ↦ (firstOccurrences_eq_self hnd ▸ hlt).false]
      constructor
      · intro hk
        simp only [Except.ok.injEq, Bool.and_eq_true, decide_eq_true_eq] at hk
        exact ⟨w, ws, rfl, hnd, hk⟩
      · rintro ⟨_, _, ⟨⟩, -, hk⟩
        simpa using hk
    · have hlen : 1 < (w :: ws).length := by
        rcases ws with _ | ⟨v, vs⟩
        · exact absurd (List.nodup_singleton w) hnd
        · simp
      rw [if_pos ⟨hlen, length_firstOccurrences_lt hnd⟩]
      refine ⟨fun h ↦ absurd h (by simp), ?_⟩
      rintro ⟨_, _, ⟨⟩, hnd', -⟩
      exact absurd hnd' hnd

/-! ## Ranking the pool -/

section Pool

variable (db : UnicodeDb) {ord : SetOrder} {tfScores trScores positionalBoosts : List (Str × ℚ)}
  {compoundTerms : List Str} {paragraphTokens : List (List Str)} {maxTerms : ℕ}
  {ranked : List (Str × ℚ)}

/-- `merge_and_rank` cuts its scored pool: the pool terms the post-filter keeps, with their
scores. -/
theorem mergeAndRank_eq_rankItems
    (h : mergeAndRank db ord tfScores trScores compoundTerms positionalBoosts paragraphTokens
      maxTerms = .ok ranked) :
    ∃ pool, ranked = rankItems pool maxTerms ∧
      ∀ x, x ∈ pool ↔ x.1 ∈ candidateSeq db trScores compoundTerms paragraphTokens ∧
        keepTerm x.1 = .ok true ∧
        x.2 = termScore (scoreTables tfScores trScores positionalBoosts paragraphTokens) x.1 := by
  rw [mergeAndRank_eq] at h
  split_ifs at h
  cases h
  refine ⟨_, rfl, fun ⟨t, s⟩ ↦ ?_⟩
  simp only [List.mem_filter, List.mem_map, Prod.mk.injEq, SetOrder.mem_enum, decide_eq_true_eq]
  constructor
  · rintro ⟨⟨t, ht, rfl, rfl⟩, hk⟩
    exact ⟨ht, hk, rfl⟩
  · rintro ⟨ht, hk, rfl⟩
    exact ⟨⟨t, ht, rfl, rfl⟩, hk⟩

/-- What `merge_and_rank` returns is sorted by score, at most `max_terms` long, and made of pool
terms the post-filter keeps, with their scores. -/
theorem mergeAndRank_sound
    (h : mergeAndRank db ord tfScores trScores compoundTerms positionalBoosts paragraphTokens
      maxTerms = .ok ranked) :
    ranked.Sorted (fun a b ↦ b.2 ≤ a.2) ∧ ranked.length ≤ maxTerms ∧
      ∀ x ∈ ranked, x.1 ∈ candidateSeq db trScores compoundTerms paragraphTokens ∧
        keepTerm x.1 = .ok true ∧
        x.2 = termScore (scoreTables tfScores trScores positionalBoosts paragraphTokens) x.1 := by
  obtain ⟨pool, rfl, hpool⟩ := mergeAndRank_eq_rankItems db h
  exact ⟨sorted_rankItems pool maxTerms, (length_rankItems pool maxTerms).trans_le
    (min_le_left _ _), fun x hx ↦ (hpool x).mp
      ((List.perm_insertionSort _ pool).subset (List.mem_of_mem_take hx))⟩

end Pool

/-! ## Term frequency -/

/-- `compute_tf` without its early return: the counts over the largest count. -/
theorem computeTf_eq (tokens : List Str) :
    computeTf tokens = (counter tokens).map fun kv ↦
      (kv.1, (kv.2 : ℚ) / (((counter tokens).map Prod.snd).foldr max 0 : ℕ)) := by
  simp only [computeTf, List.isEmpty_iff]
  split_ifs with h
  · rw [h, List.map_nil]
  · rfl

/-- The keys of `compute_tf` are the distinct tokens, in order of first occurrence. -/
theorem keys_computeTf (tokens : List Str) :
    (computeTf tokens).map Prod.fst = firstOccurrences tokens := by
  simp [computeTf_eq, counter, Function.comp_def]

/-! ## Scores are non-negative -/

theorem dictGet_nonneg {d : List (Str × ℚ)} (hd : ∀ kv ∈ d, 0 ≤ kv.2) (k : Str) {default : ℚ}
    (h0 : 0 ≤ default) : 0 ≤ dictGet d k default := by
  rcases dictGet_eq_default_or_mem d k default with h | h
  · rwa [h]
  · exact hd (k, dictGet d k default) h

theorem computeTf_nonneg (tokens : List Str) : ∀ kv ∈ computeTf tokens, 0 ≤ kv.2 := by
  simp only [computeTf]
  split_ifs
  · simp
  · simp only [List.mem_map]
    rintro _ ⟨kv, -, rfl⟩
    positivity

theorem textrank_nonneg (ord : SetOrder) (tokens : List Str) (window : ℕ) {damping : ℚ}
    (hd₀ : 0 ≤ damping) (hd₁ : damping < 1) (iterations : ℕ) :
    ∀ kv ∈ textrank ord tokens window damping iterations, 0 ≤ kv.2 := by
  rw [textrank_eq_map]
  simp only [List.mem_map]
  rintro _ ⟨a, ha, rfl⟩
  split_ifs at ha
  · simp at ha
  · have hn : 0 < (firstOccurrences (tokens.filter isContentWord)).length :=
      List.length_pos_of_mem (mem_firstOccurrences.mpr ((ord.mem_enum _ a).mp ha))
    exact (wordRank_pos hd₀ hd₁ hn _ _).le

theorem computePositionalBoost_nonneg (db : UnicodeDb) (text : Str) (terms : List Str) :
    ∀ kv ∈ computePositionalBoost db text terms, 0 ≤ kv.2 := by
  simp only [computePositionalBoost, List.mem_map]
  rintro _ ⟨term, -, rfl⟩
  unfold boostOf
  positivity

/-- A term with words scores at least `0` against tables of non-negative values. -/
theorem termScore_nonneg {t : ScoreTables} (htf : ∀ kv ∈ t.tfScores, 0 ≤ kv.2)
    (htr : ∀ kv ∈ t.trScores, 0 ≤ kv.2) (hpb : ∀ kv ∈ t.positionalBoosts, 0 ≤ kv.2)
    {term : Str} (h : strSplit term ≠ []) : 0 ≤ termScore t term := by
  have hsum : ∀ {d : List (Str × ℚ)}, (∀ kv ∈ d, 0 ≤ kv.2) → ∀ ws, 0 ≤ scoreSum d ws :=
    fun hd ws ↦ List.sum_nonneg fun _ hx ↦ by
      obtain ⟨w, -, rfl⟩ := List.mem_map.mp hx
      exact dictGet_nonneg hd w le_rfl
  have hbonus : 0 ≤ 1 + 2 / 10 * (((strSplit term).length : ℚ) - 1) := by
    have : (1 : ℚ) ≤ (strSplit term).length := by exact_mod_cast List.length_pos.mpr h
    linarith
  have hfreq : 0 ≤ (if (strSplit term).length = 1 then dictGet t.tfScores term 0
      else if (strSplit term).length = 2 then
        ((dictGet t.bigramCounts term 0 : ℕ) : ℚ) / (max t.bigramTotal 1 : ℕ)
      else ((dictGet t.trigramCounts term 0 : ℕ) : ℚ) / (max t.trigramTotal 1 : ℕ)) := by
    split_ifs
    · exact dictGet_nonneg htf term le_rfl
    all_goals positivity
  unfold termScore
  have := hsum htf (strSplit term)
  have := hsum htr (strSplit term)
  have := dictGet_nonneg hpb term zero_le_one
  positivity

theorem round4_nonneg {x : ℚ} (h : 0 ≤ x) : 0 ≤ round4 x :=
  calc (0 : ℚ) = round4 0 := by norm_num [round4, roundHalfEven]
    _ ≤ round4 x := round4_mono h

/-! ## What `process` returns -/

theorem exists_of_bind_eq_ok {ε α β : Type} {m : Except ε α} {f : α → Except ε β} {b : β}
    (h : m >>= f = .ok b) : ∃ a, m = .ok a ∧ f a = .ok b := by
  rcases m with e | a
  · cases h
  · exact ⟨a, rfl, h⟩

/-- **The shape of the result.** For every text and set order, the terms `process` returns are
at most 25, in non-increasing order of rounded score, every score non-negative; each term has
words, repeats none, and neither starts nor ends with a stopword. -/
theorem process_ranked (db : UnicodeDb) (ord : SetOrder) (text : Str) {out : Output}
    (h : process db ord text = .ok out) :
    out.candidateTerms.length ≤ 25 ∧ (out.candidateTerms.map Prod.snd).Sorted (· ≥ ·) ∧
      ∀ x ∈ out.candidateTerms, 0 ≤ x.2 ∧ ∃ w ws, strSplit x.1 = w :: ws ∧ (w :: ws).Nodup ∧
        w ∉ stopwords ∧ (w :: ws).getLast (List.cons_ne_nil w ws) ∉ stopwords := by
  simp only [process] at h
  split_ifs at h
  · cases h
    simp
  · obtain ⟨ranked, hm, hout⟩ := exists_of_bind_eq_ok h
    cases hout
    obtain ⟨hsort, hlen, hmem⟩ := mergeAndRank_sound db hm
    refine ⟨by simpa using hlen, ?_, ?_⟩
    · simp only [List.map_map, Function.comp_def]
      exact List.pairwise_map.mpr (hsort.imp round4_mono)
    · simp only [List.mem_map]
      rintro _ ⟨x, hx, rfl⟩
      obtain ⟨-, hk, hs⟩ := hmem x hx
      refine ⟨round4_nonneg ?_, (keepTerm_eq_ok_true_iff x.1).mp hk⟩
      rw [hs]
      exact termScore_nonneg (computeTf_nonneg _)
        (textrank_nonneg _ _ _ (by norm_num) (by norm_num) _)
        (computePositionalBoost_nonneg db _ _) (strSplit_ne_nil_of_keepTerm hk)

theorem zeta_data_ranked :
    process .ascii .firstSeen "zeta data zeta data\n\nthe the the the the the".toList
        = .ok ⟨true, [("zeta data".toList, 21 / 50)], ⟨10, some 3, some 0, some 0⟩⟩ ∧
      [("zeta data".toList, (21 / 50 : ℚ))].length ≤ 25 ∧
      ([("zeta data".toList, (21 / 50 : ℚ))].map Prod.snd).Sorted (· ≥ ·) ∧
      ∀ x ∈ [("zeta data".toList, (21 / 50 : ℚ))], 0 ≤ x.2 ∧ ∃ w ws,
        strSplit x.1 = w :: ws ∧ (w :: ws).Nodup ∧ w ∉ stopwords ∧
          (w :: ws).getLast (List.cons_ne_nil w ws) ∉ stopwords :=
  ⟨process_zeta_data, process_ranked .ascii .firstSeen _ process_zeta_data⟩

end Plexus
