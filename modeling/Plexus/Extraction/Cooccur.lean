import Plexus.Extraction.RankMass
import Mathlib.Algebra.BigOperators.Ring

/-!
# The co-occurrence dict

The nested loop of `textrank` fills `cooccur`, a `defaultdict(float)` keyed by pairs of
vocabulary indices: at each pair of positions `i < j < i + window` holding two different words it
adds one on `(word_to_idx[w1], word_to_idx[w2])` and one on the reversed key. The out-degree of an
index is the summed weight of the keys leaving it, and the update divides by it behind the guard
`if out_degree[src] > 0`.

## The loop, once

`cooccurrence_induction` is the one induction over the loop: a property of dicts that holds of
`{}` and survives recording a co-occurring pair in both directions holds of `cooccur`. The keys
stay free of repeats (`nodup_dictKeys_cooccurrence`) and are the two orientations of the
recorded pairs (`mem_dictKeys_cooccurrence`). Read through `get`, the dict is then a sum over the
recorded pairs (`dictGet_cooccurrence`).

## What the dict holds

The dict is symmetric whatever the numbering (`dictGet_cooccurrence_swap`). Numbered by a
vocabulary of the stream's words, it has no diagonal key (`not_mem_dictKeys_cooccurrence`) and
its entry at a pair of distinct words is the number of position pairs within the window holding
those two words, in either order (`dictGet_cooccurrence_wordIndex`), a `Finset` read from the
specification rather than from the loop (`cooccurrencePositions`). With a window of at least two
and two distinct words in the stream, every index of the vocabulary has positive out-degree
(`Numbering.outDegree_pos`), so the guard never skips a source.
-/

namespace Plexus

/-! ## The loop, once -/

/-- The loop body records the pair `coPair` finds, in both directions, or nothing. -/
theorem cooccurStep_eq_elim (wordToIdx : Str → ℕ) (filtered : List Str)
    (cooccur : List ((ℕ × ℕ) × ℚ)) (ij : ℕ × ℕ) :
    cooccurStep wordToIdx filtered cooccur ij = (coPair filtered ij).elim cooccur fun p ↦
      dictAdd (dictAdd cooccur (wordToIdx p.1, wordToIdx p.2) 1)
        (wordToIdx p.2, wordToIdx p.1) 1 := by
  simp only [cooccurStep, coPair]
  split_ifs <;> rfl

section Loop

variable (wordToIdx : Str → ℕ) (filtered : List Str) (window : ℕ)

/-- **The loop, once.** A property of dicts that holds of `{}` and survives recording a
co-occurring pair in both directions holds of `cooccur`. -/
theorem cooccurrence_induction (P : List ((ℕ × ℕ) × ℚ) → Prop) (h₀ : P [])
    (hstep : ∀ d, ∀ p ∈ coPairs filtered window, P d →
      P (dictAdd (dictAdd d (wordToIdx p.1, wordToIdx p.2) 1) (wordToIdx p.2, wordToIdx p.1) 1)) :
    P (cooccurrence wordToIdx filtered window) := by
  suffices ∀ ps : List (ℕ × ℕ), (∀ ij ∈ ps, ij ∈ windowPairs window filtered.length) →
      ∀ d, P d → P (ps.foldl (cooccurStep wordToIdx filtered) d) from
    this _ (fun _ ↦ id) [] h₀
  intro ps
  induction ps with
  | nil => exact fun _ _ ↦ id
  | cons ij ps ih =>
    intro hps d hd
    refine ih (fun x hx ↦ hps x (.tail _ hx)) _ ?_
    rw [cooccurStep_eq_elim]
    cases hp : coPair filtered ij with
    | none => exact hd
    | some p => exact hstep d p (List.mem_filterMap.mpr ⟨ij, hps ij (.head _), hp⟩) hd

theorem nodup_dictKeys_cooccurrence :
    (dictKeys (cooccurrence wordToIdx filtered window)).Nodup :=
  cooccurrence_induction wordToIdx filtered window (fun d ↦ (dictKeys d).Nodup) List.nodup_nil
    fun _ _ _ hd ↦ nodup_dictKeys_dictAdd (nodup_dictKeys_dictAdd hd _ _) _ _

theorem mem_dictKeys_cooccurrence {k : ℕ × ℕ}
    (hk : k ∈ dictKeys (cooccurrence wordToIdx filtered window)) :
    ∃ p ∈ coPairs filtered window,
      k = (wordToIdx p.1, wordToIdx p.2) ∨ k = (wordToIdx p.2, wordToIdx p.1) := by
  refine cooccurrence_induction wordToIdx filtered window (fun d ↦ ∀ k ∈ dictKeys d,
      ∃ p ∈ coPairs filtered window,
        k = (wordToIdx p.1, wordToIdx p.2) ∨ k = (wordToIdx p.2, wordToIdx p.1))
    (fun k hk ↦ absurd hk (List.not_mem_nil k)) (fun d p hp hd k hk ↦ ?_) k hk
  rcases mem_dictKeys_dictAdd.mp hk with hk | rfl
  · rcases mem_dictKeys_dictAdd.mp hk with hk | rfl
    · exact hd k hk
    · exact ⟨p, hp, .inl rfl⟩
  · exact ⟨p, hp, .inr rfl⟩

/-- **The dict read through `get`.** `cooccur.get(k, 0)` counts the recorded pairs that land on
`k`, in either direction. -/
theorem dictGet_cooccurrence (k : ℕ × ℕ) :
    dictGet (cooccurrence wordToIdx filtered window) k 0
      = ((coPairs filtered window).map fun p ↦
          (if (wordToIdx p.1, wordToIdx p.2) = k then 1 else 0) +
            (if (wordToIdx p.2, wordToIdx p.1) = k then (1 : ℚ) else 0)).sum := by
  rw [dictGet_eq_dictSum (nodup_dictKeys_cooccurrence ..), dictSum_cooccurrence]

/-- **Symmetry.** `cooccur[(x, y)] = cooccur[(y, x)]`, whatever the numbering. -/
theorem dictGet_cooccurrence_swap (x y : ℕ) :
    dictGet (cooccurrence wordToIdx filtered window) (x, y) 0
      = dictGet (cooccurrence wordToIdx filtered window) (y, x) 0 := by
  simp only [dictGet_cooccurrence, Prod.mk.injEq]
  congr 1
  refine List.map_congr_left fun p _ ↦ ?_
  rw [add_comm]
  simp only [and_comm]

end Loop

/-! ## Numbered by a vocabulary -/

section Vocabulary

variable {filtered : List Str} {window : ℕ} {vocab : List Str}

/-- **No diagonal.** Numbered by a vocabulary of the stream's words, no key is `(x, x)`. -/
theorem not_mem_dictKeys_cooccurrence (hvocab : ∀ x, x ∈ vocab ↔ x ∈ filtered) (x : ℕ) :
    (x, x) ∉ dictKeys (cooccurrence (wordIndex vocab) filtered window) := by
  intro hk
  obtain ⟨p, hp, h⟩ := mem_dictKeys_cooccurrence _ _ _ hk
  obtain ⟨h₁, h₂, hne⟩ := mem_of_mem_coPairs hp
  have : wordIndex vocab p.1 = wordIndex vocab p.2 := by
    rcases h with h | h <;> simp only [Prod.mk.injEq] at h <;> omega
  exact hne ((wordIndex_eq_iff ((hvocab _).mpr h₁)).mp this)

/-- The position pairs `i < j < i + window` of the stream with
`{filtered[i], filtered[j]} = {a, b}`. -/
def cooccurrencePositions (filtered : List Str) (window : ℕ) (a b : Str) : Finset (ℕ × ℕ) :=
  (Finset.range filtered.length ×ˢ Finset.range filtered.length).filter fun ij ↦
    ij.1 < ij.2 ∧ ij.2 < ij.1 + window ∧
      (filtered[ij.1]? = some a ∧ filtered[ij.2]? = some b ∨
        filtered[ij.1]? = some b ∧ filtered[ij.2]? = some a)

theorem nodup_windowPairs (window n : ℕ) : (windowPairs window n).Nodup := by
  refine List.nodup_flatMap.mpr ⟨fun i _ ↦ (List.nodup_range' _ _).map (Prod.mk.inj_left i), ?_⟩
  refine (List.nodup_range n).imp fun {i i'} hne x hx hx' ↦ ?_
  obtain ⟨_, -, rfl⟩ := List.mem_map.mp hx
  obtain ⟨_, -, h⟩ := List.mem_map.mp hx'
  exact hne (Prod.mk.inj h).1.symm

/-- Summed over the loop's position pairs, an indicator counts the pairs `i < j < i + window`
where it holds. -/
theorem sum_windowPairs_ite (window n : ℕ) (q : ℕ × ℕ → Prop) [DecidablePred q] :
    ((windowPairs window n).map fun ij ↦ if q ij then (1 : ℚ) else 0).sum
      = (((Finset.range n ×ˢ Finset.range n).filter fun ij ↦
          ij.1 < ij.2 ∧ ij.2 < ij.1 + window ∧ q ij).card : ℚ) := by
  rw [← List.sum_toFinset _ (nodup_windowPairs window n), Finset.sum_boole]
  congr 2
  ext ⟨i, j⟩
  simp only [Finset.mem_filter, List.mem_toFinset, mem_windowPairs, Finset.mem_product,
    Finset.mem_range]
  exact ⟨fun ⟨⟨h₁, h₂, h₃⟩, hq⟩ ↦ ⟨⟨by omega, h₃⟩, h₁, h₂, hq⟩,
    fun ⟨⟨_, h₃⟩, h₁, h₂, hq⟩ ↦ ⟨⟨h₁, h₂, h₃⟩, hq⟩⟩

/-- At a pair of positions of the stream, the loop records `a` and `b` exactly when the two
positions hold them, in either order. -/
theorem coPair_count (hvocab : ∀ x, x ∈ vocab ↔ x ∈ filtered) {a b : Str} (hab : a ≠ b)
    {i j : ℕ} (hi : i < filtered.length) (hj : j < filtered.length) :
    ((coPair filtered (i, j)).map fun p ↦
        (if (wordIndex vocab p.1, wordIndex vocab p.2) = (wordIndex vocab a, wordIndex vocab b)
          then 1 else 0) +
        (if (wordIndex vocab p.2, wordIndex vocab p.1) = (wordIndex vocab a, wordIndex vocab b)
          then (1 : ℚ) else 0)).getD 0
      = if filtered[i]? = some a ∧ filtered[j]? = some b ∨
          filtered[i]? = some b ∧ filtered[j]? = some a then 1 else 0 := by
  have hx : filtered[i] ∈ vocab := (hvocab _).mpr (List.getElem_mem hi)
  have hy : filtered[j] ∈ vocab := (hvocab _).mpr (List.getElem_mem hj)
  simp only [coPair, List.getD_eq_getElem?_getD, List.getElem?_eq_getElem hi,
    List.getElem?_eq_getElem hj, Option.getD_some, Option.some.injEq]
  by_cases hxy : filtered[i] = filtered[j]
  · rw [if_neg (not_not.mpr hxy), Option.map_none', Option.getD_none, if_neg]
    rintro (⟨rfl, rfl⟩ | ⟨rfl, rfl⟩) <;> exact hab (hxy ▸ rfl)
  · simp only [if_pos hxy, Option.map_some', Option.getD_some, Prod.mk.injEq,
      wordIndex_eq_iff hx, wordIndex_eq_iff hy]
    by_cases h₁ : filtered[i] = a ∧ filtered[j] = b
    · have h₂ : ¬(filtered[j] = a ∧ filtered[i] = b) := fun h₂ ↦ hab (h₁.1.symm.trans h₂.2)
      rw [if_pos h₁, if_neg h₂, if_pos (.inl h₁), add_zero]
    · simp only [h₁, if_false, false_or, zero_add, and_comm]

/-- **The windowed count.** For `a ≠ b`, the entry at `(word_to_idx[a], word_to_idx[b])` is the
number of position pairs `i < j < i + window` holding `a` and `b`, in either order. -/
theorem dictGet_cooccurrence_wordIndex (hvocab : ∀ x, x ∈ vocab ↔ x ∈ filtered) {a b : Str}
    (hab : a ≠ b) :
    dictGet (cooccurrence (wordIndex vocab) filtered window)
        (wordIndex vocab a, wordIndex vocab b) 0
      = (cooccurrencePositions filtered window a b).card := by
  rw [dictGet_cooccurrence, coPairs, sum_map_filterMap, cooccurrencePositions,
    ← sum_windowPairs_ite]
  congr 1
  refine List.map_congr_left fun ⟨i, j⟩ hij ↦ ?_
  obtain ⟨hlt, -, hj⟩ := mem_windowPairs.mp hij
  exact coPair_count hvocab hab (by omega) hj

end Vocabulary

/-! ## Out-degrees -/

/-- **No mass dropped.** With a window of at least two and two distinct words in the stream, every
index of the vocabulary has positive out-degree, whatever order the items are read in. -/
theorem Numbering.outDegree_pos {filtered : List Str} {window : ℕ} {vocab : List Str}
    {items : List ((ℕ × ℕ) × ℚ)} (h : Numbering filtered window vocab items) (hw : 2 ≤ window)
    (hdistinct : ∃ x ∈ filtered, ∃ y ∈ filtered, x ≠ y) {i : ℕ} (hi : i < vocab.length) :
    0 < (outDegree vocab.length items).getD i 0 := by
  have hmem : vocab[i] ∈ filtered := (h.mem_iff _).mp (List.getElem_mem hi)
  rw [← wordIndex_getElem h.nodup hi, h.outDegree_getD hmem]
  exact degree_coPairs_pos hw hdistinct hmem

/-! ## The dict `textrank` builds -/

/-- **The co-occurrence dict of `textrank`.** For a filtered stream holding two distinct words, a
window of at least two, any iteration order of `set(filtered)` and any reading order of the
items: `cooccur` is symmetric, has no key `(x, x)`, holds at `(word_to_idx[a], word_to_idx[b])`
for `a ≠ b` the number of position pairs `i < j < i + window` with
`{filtered[i], filtered[j]} = {a, b}`, and gives every vocabulary index a positive out-degree. -/
theorem cooccurrence_symm_count_outDegree_pos (ord : SetOrder)
    (itemOrder : DictOrder ((ℕ × ℕ) × ℚ)) (filtered : List Str) (window : ℕ)
    (hdistinct : ∃ x ∈ filtered, ∃ y ∈ filtered, x ≠ y) (hw : 2 ≤ window) :
    let vocab := ord.enum filtered
    let cooccur := cooccurrence (wordIndex vocab) filtered window
    (∀ x y : ℕ, dictGet cooccur (x, y) 0 = dictGet cooccur (y, x) 0) ∧
      (∀ x : ℕ, (x, x) ∉ dictKeys cooccur) ∧
      (∀ a b : Str, a ≠ b → dictGet cooccur (wordIndex vocab a, wordIndex vocab b) 0
        = (cooccurrencePositions filtered window a b).card) ∧
      ∀ i < vocab.length, 0 < (outDegree vocab.length (itemOrder.reorder cooccur)).getD i 0 :=
  ⟨dictGet_cooccurrence_swap _ _ _, not_mem_dictKeys_cooccurrence (ord.mem_enum _),
    fun _ _ ↦ dictGet_cooccurrence_wordIndex (ord.mem_enum _),
    fun _ ↦ Numbering.outDegree_pos ⟨ord.nodup _, ord.mem_enum _, itemOrder.perm _⟩ hw hdistinct⟩

theorem cooccurrence_alpha_beta :
    (∃ x ∈ ["alpha".toList, "beta".toList, "alpha".toList],
        ∃ y ∈ ["alpha".toList, "beta".toList, "alpha".toList], x ≠ y) ∧ 2 ≤ 5 ∧
      dictGet (cooccurrence (wordIndex (SetOrder.firstSeen.enum
          ["alpha".toList, "beta".toList, "alpha".toList]))
          ["alpha".toList, "beta".toList, "alpha".toList] 5) (0, 1) 0
        = (cooccurrencePositions ["alpha".toList, "beta".toList, "alpha".toList] 5
            "alpha".toList "beta".toList).card :=
  ⟨by decide, by decide,
    (cooccurrence_symm_count_outDegree_pos .firstSeen .insertion
      ["alpha".toList, "beta".toList, "alpha".toList] 5 (by decide) (by decide)).2.2.1
      "alpha".toList "beta".toList (by decide)⟩

end Plexus
