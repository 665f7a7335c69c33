import Plexus.Extraction.TextRank

/-!
# TextRank over words

The rank iteration of `textrank` reads the co-occurrence dict only through sums
`sum(weight * f(key))` over its items, and each of those sums is a sum over the co-occurring
pairs of positions (`dictSum_cooccurrence`). Written over words instead of indices, the iteration
is `wordRank`: it depends on the filtered tokens, the window, the damping and the number of
distinct words, and on no order at all.

`rankVocab_eq` is the simulation: whatever order the vocabulary is numbered in and whatever order
the items are read in, `textrank` returns `wordRank` on its vocabulary. The order independence of
`textrank` and the conservation of rank mass are then statements about `wordRank` alone.
-/

namespace Plexus

/-! ## Reading items into a list of scores -/

/-- Reading the items `l` with `acc[key x] += g x` leaves at an index the start value plus the
weights keyed there. -/
theorem getD_foldl_modify {β : Type} (l : List β) (key : β → ℕ) (g : β → ℚ) :
    ∀ (init : List ℚ) (i : ℕ), i < init.length →
      (l.foldl (fun acc x ↦ acc.modify (· + g x) (key x)) init).getD i 0
        = init.getD i 0 + (l.map fun x ↦ if key x = i then g x else 0).sum := by
  induction l with
  | nil => simp
  | cons x l ih =>
    intro init i hi
    rw [List.foldl_cons, ih _ i (by simpa using hi), List.map_cons, List.sum_cons]
    have : (init.modify (· + g x) (key x)).getD i 0
        = init.getD i 0 + if key x = i then g x else 0 := by
      simp only [List.getD_eq_getElem?_getD, List.getElem?_modify, List.getElem?_eq_getElem hi]
      split_ifs <;> simp
    rw [this, add_assoc]

theorem length_foldl_modify {β : Type} (l : List β) (key : β → ℕ) (g : β → ℚ) (init : List ℚ) :
    (l.foldl (fun acc x ↦ acc.modify (· + g x) (key x)) init).length = init.length := by
  induction l generalizing init with
  | nil => rfl
  | cons x l ih => simp [ih]

/-! ## Co-occurring pairs -/

/-- The co-occurrence at positions `ij`, as a pair of words, if the words differ. -/
def coPair (filtered : List Str) (ij : ℕ × ℕ) : Option (Str × Str) :=
  let w₁ := filtered.getD ij.1 []
  let w₂ := filtered.getD ij.2 []
  if w₁ ≠ w₂ then some (w₁, w₂) else none

/-- The co-occurrences `textrank` records, as pairs of words. -/
def coPairs (filtered : List Str) (window : ℕ) : List (Str × Str) :=
  (windowPairs window filtered.length).filterMap (coPair filtered)

theorem mem_windowPairs {window n i j : ℕ} :
    (i, j) ∈ windowPairs window n ↔ i < j ∧ j < i + window ∧ j < n := by
  simp only [windowPairs, List.mem_flatMap, List.mem_range, List.mem_map, List.mem_range',
    Prod.mk.injEq]
  constructor
  · rintro ⟨a, -, b, ⟨k, hk, rfl⟩, rfl, rfl⟩
    have : k < min (a + window) n - (a + 1) := hk
    omega
  · rintro ⟨h₁, h₂, h₃⟩
    refine ⟨i, by omega, j, ⟨j - (i + 1), ?_, by omega⟩, rfl, rfl⟩
    show j - (i + 1) < min (i + window) n - (i + 1)
    omega

theorem mem_of_mem_coPairs {filtered : List Str} {window : ℕ} {p : Str × Str}
    (h : p ∈ coPairs filtered window) : p.1 ∈ filtered ∧ p.2 ∈ filtered ∧ p.1 ≠ p.2 := by
  simp only [coPairs, List.mem_filterMap] at h
  obtain ⟨⟨i, j⟩, hij, hp⟩ := h
  have := mem_windowPairs.mp hij
  simp only [coPair] at hp
  split_ifs at hp with hne
  cases hp
  have hi : i < filtered.length := by omega
  have hj : j < filtered.length := by omega
  refine ⟨?_, ?_, hne⟩
  · simpa only [List.getD_eq_getElem?_getD, List.getElem?_eq_getElem hi] using List.getElem_mem hi
  · simpa only [List.getD_eq_getElem?_getD, List.getElem?_eq_getElem hj] using List.getElem_mem hj

theorem dictSum_cooccurStep (wordToIdx : Str → ℕ) (filtered : List Str)
    (cooccur : List ((ℕ × ℕ) × ℚ)) (ij : ℕ × ℕ) (f : ℕ × ℕ → ℚ) :
    dictSum (cooccurStep wordToIdx filtered cooccur ij) f
      = dictSum cooccur f + (((coPair filtered ij).toList).map fun p ↦
          f (wordToIdx p.1, wordToIdx p.2) + f (wordToIdx p.2, wordToIdx p.1)).sum := by
  simp only [cooccurStep, coPair]
  split_ifs
  · simp only [dictSum_dictAdd, Option.toList_some, List.map_cons, List.map_nil, List.sum_cons,
      List.sum_nil, add_zero]
    ring
  · simp

/-- **The co-occurrence dict as a sum over pairs.** A weighted sum over the items of `cooccur`
is the sum, over the co-occurring pairs, of both directions. -/
theorem dictSum_cooccurrence (wordToIdx : Str → ℕ) (filtered : List Str) (window : ℕ)
    (f : ℕ × ℕ → ℚ) :
    dictSum (cooccurrence wordToIdx filtered window) f
      = ((coPairs filtered window).map fun p ↦
          f (wordToIdx p.1, wordToIdx p.2) + f (wordToIdx p.2, wordToIdx p.1)).sum := by
  suffices ∀ (ps : List (ℕ × ℕ)) (init : List ((ℕ × ℕ) × ℚ)),
      dictSum (ps.foldl (cooccurStep wordToIdx filtered) init) f
        = dictSum init f + ((ps.filterMap (coPair filtered)).map fun p ↦
          f (wordToIdx p.1, wordToIdx p.2) + f (wordToIdx p.2, wordToIdx p.1)).sum by
    simpa [dictSum] using this (windowPairs window filtered.length) []
  intro ps
  induction ps with
  | nil => simp
  | cons ij ps ih =>
    intro init
    rw [List.foldl_cons, ih, dictSum_cooccurStep, add_assoc, List.filterMap_cons]
    congr 1
    cases coPair filtered ij <;> simp

/-! ## The iteration over words -/

section WordRank

variable (pairs : List (Str × Str)) (n : ℕ) (damping : ℚ)

/-- The summed weight of the items of `cooccur` leaving a word: one for each co-occurrence it is
part of, on either side. -/
def degree (a : Str) : ℚ :=
  (pairs.map fun p ↦ (if p.1 = a then 1 else 0) + (if p.2 = a then 1 else 0)).sum

/-- What a word passes along each of its items in one update; a word of degree zero passes
nothing. -/
def share (s : Str → ℚ) (a : Str) : ℚ :=
  if 0 < degree pairs a then damping * s a / degree pairs a else 0

/-- One update, over words. -/
def wordStep (s : Str → ℚ) (b : Str) : ℚ :=
  (1 - damping) / n + (pairs.map fun p ↦
    (if p.2 = b then share pairs damping s p.1 else 0) +
      (if p.1 = b then share pairs damping s p.2 else 0)).sum

/-- The rank iteration over words, from `1 / n` everywhere. -/
def wordRank : ℕ → Str → ℚ
  | 0 => fun _ ↦ 1 / n
  | k + 1 => wordStep pairs n damping (wordRank k)

end WordRank

/-! ## Simulation -/

/-- How `textrankWith` numbers its words and reads its items: the vocabulary lists each distinct
filtered token once, and the items are the co-occurrence dict of that numbering in some order. -/
structure Numbering (filtered : List Str) (window : ℕ) (vocab : List Str)
    (items : List ((ℕ × ℕ) × ℚ)) : Prop where
  nodup : vocab.Nodup
  mem_iff : ∀ x, x ∈ vocab ↔ x ∈ filtered
  perm : items.Perm (cooccurrence (wordIndex vocab) filtered window)

section Simulation

variable {filtered : List Str} {window : ℕ} {vocab : List Str} {items : List ((ℕ × ℕ) × ℚ)}

theorem Numbering.index_lt (h : Numbering filtered window vocab items) {a : Str}
    (ha : a ∈ filtered) : wordIndex vocab a < vocab.length :=
  wordIndex_lt ((h.mem_iff a).mpr ha)

theorem Numbering.index_inj (h : Numbering filtered window vocab items) {a b : Str}
    (ha : a ∈ filtered) (hb : b ∈ filtered) : wordIndex vocab a = wordIndex vocab b ↔ a = b :=
  wordIndex_inj ((h.mem_iff a).mpr ha) ((h.mem_iff b).mpr hb)

theorem Numbering.dictSum_items (h : Numbering filtered window vocab items) (f : ℕ × ℕ → ℚ) :
    dictSum items f = ((coPairs filtered window).map fun p ↦
      f (wordIndex vocab p.1, wordIndex vocab p.2) +
        f (wordIndex vocab p.2, wordIndex vocab p.1)).sum := by
  rw [← dictSum_cooccurrence, dictSum, dictSum, (h.perm.map _).sum_eq]

/-- Read through the numbering, the out-degree of a word is its `degree`. -/
theorem Numbering.outDegree_getD (h : Numbering filtered window vocab items) {a : Str}
    (ha : a ∈ filtered) :
    (outDegree vocab.length items).getD (wordIndex vocab a) 0
      = degree (coPairs filtered window) a := by
  rw [outDegree, getD_foldl_modify _ _ _ _ _ (by simpa using h.index_lt ha)]
  have hsum : (items.map fun kv ↦ if kv.1.1 = wordIndex vocab a then kv.2 else 0).sum
      = dictSum items fun k ↦ if k.1 = wordIndex vocab a then 1 else 0 := by
    rw [dictSum]
    congr 1
    exact List.map_congr_left fun kv _ ↦ by split_ifs <;> simp
  rw [hsum, h.dictSum_items, degree]
  simp only [List.getD_eq_getElem?_getD, List.getElem?_replicate, zero_add]
  split_ifs
  · simp only [Option.getD_some, zero_add]
    congr 1
    refine List.map_congr_left fun p hp ↦ ?_
    obtain ⟨h₁, h₂, -⟩ := mem_of_mem_coPairs hp
    simp only [h.index_inj h₁ ha, h.index_inj h₂ ha]
  · exact absurd (h.index_lt ha) ‹_›

/-- The guard of the update is an update by zero when it fails. -/
theorem rankStep_eq (n : ℕ) (damping : ℚ) (items : List ((ℕ × ℕ) × ℚ)) (od scores : List ℚ) :
    rankStep n damping items od scores
      = items.foldl (fun ns kv ↦ ns.modify (· + if 0 < od.getD kv.1.1 0 then
          damping * scores.getD kv.1.1 0 * kv.2 / od.getD kv.1.1 0 else 0) kv.1.2)
        (List.replicate n ((1 - damping) / n)) := by
  rw [rankStep]
  congr 1
  funext ns kv
  split_ifs
  · rfl
  · simp only [add_zero]
    exact (List.modify_id _ ns).symm

theorem length_rankStep (n : ℕ) (damping : ℚ) (items : List ((ℕ × ℕ) × ℚ)) (od scores : List ℚ) :
    (rankStep n damping items od scores).length = n := by
  rw [rankStep_eq, length_foldl_modify, List.length_replicate]

/-- Read through the numbering, one update of the scores is `wordStep`. -/
theorem Numbering.rankStep_getD (h : Numbering filtered window vocab items) (damping : ℚ)
    {scores : List ℚ} {s : Str → ℚ} (hs : ∀ a ∈ filtered, scores.getD (wordIndex vocab a) 0 = s a)
    {b : Str} (hb : b ∈ filtered) :
    (rankStep vocab.length damping items (outDegree vocab.length items) scores).getD
        (wordIndex vocab b) 0
      = wordStep (coPairs filtered window) vocab.length damping s b := by
  set od := outDegree vocab.length items
  rw [rankStep_eq, getD_foldl_modify _ _ _ _ _ (by simpa using h.index_lt hb)]
  have hsum : (items.map fun kv ↦ if kv.1.2 = wordIndex vocab b then
        (if 0 < od.getD kv.1.1 0 then damping * scores.getD kv.1.1 0 * kv.2 / od.getD kv.1.1 0
          else 0) else 0).sum
      = dictSum items fun k ↦ if k.2 = wordIndex vocab b ∧ 0 < od.getD k.1 0 then
          damping * scores.getD k.1 0 / od.getD k.1 0 else 0 := by
    rw [dictSum]
    congr 1
    refine List.map_congr_left fun kv _ ↦ ?_
    simp only [ite_and]
    split_ifs
    · ring
    all_goals simp
  rw [hsum, h.dictSum_items, wordStep, List.getD_eq_getElem?_getD,
    List.getElem?_replicate_of_lt (h.index_lt hb), Option.getD_some]
  congr 1
  refine congrArg List.sum (List.map_congr_left fun p hp ↦ ?_)
  obtain ⟨h₁, h₂, -⟩ := mem_of_mem_coPairs hp
  simp only [h.index_inj h₂ hb, h.index_inj h₁ hb, h.outDegree_getD h₁, h.outDegree_getD h₂,
    hs _ h₁, hs _ h₂, share, ite_and]

/-- **Simulation, step by step.** After `k` updates the scores, read through the numbering, are
`wordRank` after `k` steps. -/
theorem Numbering.iterate_rankStep (h : Numbering filtered window vocab items) (damping : ℚ)
    (k : ℕ) :
    ((rankStep vocab.length damping items (outDegree vocab.length items))^[k]
        (List.replicate vocab.length (1 / vocab.length))).length = vocab.length ∧
      ∀ a ∈ filtered, ((rankStep vocab.length damping items (outDegree vocab.length items))^[k]
          (List.replicate vocab.length (1 / vocab.length))).getD (wordIndex vocab a) 0
        = wordRank (coPairs filtered window) vocab.length damping k a := by
  induction k with
  | zero =>
    refine ⟨List.length_replicate _ _, fun a ha ↦ ?_⟩
    rw [Function.iterate_zero_apply, List.getD_eq_getElem?_getD,
      List.getElem?_replicate_of_lt (h.index_lt ha), Option.getD_some, wordRank]
  | succ k ih =>
    rw [Function.iterate_succ_apply']
    exact ⟨length_rankStep .., fun a ha ↦ h.rankStep_getD damping ih.2 ha⟩

theorem zip_map_self {α β : Type} (l : List α) (f : α → β) :
    l.zip (l.map f) = l.map fun a ↦ (a, f a) := by
  induction l with
  | nil => rfl
  | cons a l ih => simp [ih]

/-- **Simulation.** Whatever order the vocabulary is numbered in and the items are read in, the
rank iteration returns `wordRank` on each word of the vocabulary. -/
theorem Numbering.rankVocab_eq (h : Numbering filtered window vocab items) (damping : ℚ)
    (iterations : ℕ) :
    rankVocab vocab items damping iterations
      = vocab.map fun a ↦
          (a, wordRank (coPairs filtered window) vocab.length damping iterations a) := by
  obtain ⟨hlen, hval⟩ := h.iterate_rankStep damping iterations
  rw [rankVocab, ← zip_map_self]
  congr 1
  refine List.ext_getElem (by simpa using hlen) fun i h₁ h₂ ↦ ?_
  have hi : i < vocab.length := by simpa using h₂
  have hmem : vocab[i] ∈ filtered := (h.mem_iff _).mp (List.getElem_mem hi)
  have := hval _ hmem
  rw [wordIndex_getElem h.nodup hi, List.getD_eq_getElem?_getD, List.getElem?_eq_getElem h₁,
    Option.getD_some] at this
  rw [this, List.getElem_map]

end Simulation

/-! ## Order independence -/

/-- **`textrank` over words.** Whatever the set order and the dict order, `textrank` scores each
distinct filtered token by `wordRank`, or returns nothing for fewer than three filtered tokens. -/
theorem textrankWith_eq (ord : SetOrder) (itemOrder : DictOrder ((ℕ × ℕ) × ℚ))
    (tokens : List Str) (window : ℕ) (damping : ℚ) (iterations : ℕ) :
    textrankWith ord itemOrder tokens window damping iterations =
      if (tokens.filter isContentWord).length < 3 then []
      else (ord.enum (tokens.filter isContentWord)).map fun a ↦
        (a, wordRank (coPairs (tokens.filter isContentWord) window)
          (ord.enum (tokens.filter isContentWord)).length damping iterations a) := by
  simp only [textrankWith]
  split_ifs
  · rfl
  · exact Numbering.rankVocab_eq ⟨ord.nodup _, ord.mem_enum _, itemOrder.perm _⟩ damping iterations

/-- **Order independence.** Two runs of `textrank` that iterate `set(filtered)` in different
orders, and read `cooccur` in different orders, return the same items up to order: the same
word-to-score dict. -/
theorem textrankWith_perm (o₁ o₂ : SetOrder) (π₁ π₂ : DictOrder ((ℕ × ℕ) × ℚ))
    (tokens : List Str) (window : ℕ) (damping : ℚ) (iterations : ℕ) :
    (textrankWith o₁ π₁ tokens window damping iterations).Perm
      (textrankWith o₂ π₂ tokens window damping iterations) := by
  rw [textrankWith_eq, textrankWith_eq]
  split_ifs
  · exact .nil
  · have h := @SetOrder.enum_perm o₁ o₂ (tokens.filter isContentWord) _ fun _ ↦ Iff.rfl
    rw [h.length_eq]
    exact h.map _

end Plexus
