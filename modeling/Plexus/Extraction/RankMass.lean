import Plexus.Extraction.RankModel
import Mathlib.Algebra.BigOperators.Ring.List
import Mathlib.Algebra.Order.BigOperators.Group.List
import Mathlib.Tactic.NormNum.Ineq

/-!
# Rank mass

The scores `textrank` returns are a distribution when every word passes its score on: each update
keeps `(1 - damping)` of the mass as the uniform base and passes `damping * score` of each word
along its items, split by out-degree. Summed over the vocabulary,

  `∑ wordStep s = (1 - damping) + ∑ share s a * degree a`,

and `share s a * degree a = damping * s a` exactly when `degree a > 0` (`share_mul_degree`).

## Where the mass goes

A word with no co-occurrence is the source of no item of `cooccur`, so no update passes its score
on. The guard `if out_degree[src] > 0` plays no part in this: the source of an item counts that
item's positive weight in its out-degree.

In a stream with at least two distinct words and a window of at least two, some pair of
neighbouring positions holds two different words next to each given word's run
(`exists_adjacent_ne`), so every word has positive degree and no mass is lost
(`degree_coPairs_pos`). A stream of one repeated word has no co-occurrence at all, and its only
score decays to `1 - damping` after one update.
-/

namespace Plexus

/-! ## Mass -/

section Mass

variable {pairs : List (Str × Str)} {damping : ℚ}

theorem degree_nonneg (a : Str) : 0 ≤ degree pairs a :=
  List.sum_nonneg fun _ hx ↦ by
    obtain ⟨p, -, rfl⟩ := List.mem_map.mp hx
    split_ifs <;> norm_num

/-- A word of positive degree passes on exactly `damping` times its score. -/
theorem share_mul_degree (s : Str → ℚ) {a : Str} (h : 0 < degree pairs a) :
    share pairs damping s a * degree pairs a = damping * s a := by
  rw [share, if_pos h, div_mul_cancel₀ _ h.ne']

theorem share_nonneg (hd : 0 ≤ damping) {s : Str → ℚ} (hs : ∀ a, 0 ≤ s a) (a : Str) :
    0 ≤ share pairs damping s a := by
  unfold share
  split_ifs with h
  · exact div_nonneg (mul_nonneg hd (hs a)) h.le
  · exact le_rfl

/-- **Positivity, one step.** For `0 ≤ damping < 1` the update of non-negative scores is
positive everywhere: the base `(1 - damping) / n` alone is. -/
theorem wordStep_pos (hd₀ : 0 ≤ damping) (hd₁ : damping < 1) {n : ℕ} (hn : 0 < n)
    {s : Str → ℚ} (hs : ∀ a, 0 ≤ s a) (b : Str) : 0 < wordStep pairs n damping s b := by
  refine add_pos_of_pos_of_nonneg (div_pos (sub_pos.mpr hd₁) (by exact_mod_cast hn))
    (List.sum_nonneg fun _ hx ↦ ?_)
  obtain ⟨p, -, rfl⟩ := List.mem_map.mp hx
  have := @share_nonneg pairs damping hd₀ _ hs
  exact add_nonneg (by split_ifs <;> simp [this]) (by split_ifs <;> simp [this])

/-- **Positivity.** Every score of the iteration is positive. -/
theorem wordRank_pos (hd₀ : 0 ≤ damping) (hd₁ : damping < 1) {n : ℕ} (hn : 0 < n) :
    ∀ k a, 0 < wordRank pairs n damping k a
  | 0, _ => by simpa [wordRank] using hn
  | k + 1, b => wordStep_pos hd₀ hd₁ hn (fun a ↦ (wordRank_pos hd₀ hd₁ hn k a).le) b

variable {V : List Str}

/-- **Mass, one step.** Over a vocabulary without repeats that holds every word of the pairs, one
update keeps `1 - damping` as the base and adds what the words pass on. -/
theorem sum_wordStep (hV : V.Nodup) (hpairs : ∀ p ∈ pairs, p.1 ∈ V ∧ p.2 ∈ V) (hne : V ≠ [])
    (s : Str → ℚ) :
    (V.map (wordStep pairs V.length damping s)).sum
      = (1 - damping) + (V.map fun a ↦ share pairs damping s a * degree pairs a).sum := by
  have hbase : (V.map fun _ ↦ (1 - damping) / V.length).sum = 1 - damping := by
    rw [List.map_const', List.sum_replicate, nsmul_eq_mul,
      mul_div_cancel₀ _ (by exact_mod_cast (List.length_pos.mpr hne).ne')]
  have hpass : ∀ p ∈ pairs, (V.map fun b ↦ (if p.2 = b then share pairs damping s p.1 else 0) +
      (if p.1 = b then share pairs damping s p.2 else 0)).sum
        = share pairs damping s p.1 + share pairs damping s p.2 := fun p hp ↦ by
    rw [List.sum_map_add,
      sum_map_ite_eq_of_nodup hV (hpairs p hp).2 fun _ ↦ share pairs damping s p.1,
      sum_map_ite_eq_of_nodup hV (hpairs p hp).1 fun _ ↦ share pairs damping s p.2]
  have hdeg : ∀ p ∈ pairs, (V.map fun a ↦ share pairs damping s a *
      ((if p.1 = a then 1 else 0) + (if p.2 = a then 1 else 0))).sum
        = share pairs damping s p.1 + share pairs damping s p.2 := fun p hp ↦ by
    simp only [mul_add, mul_ite, mul_one, mul_zero, List.sum_map_add,
      sum_map_ite_eq_of_nodup hV (hpairs p hp).1, sum_map_ite_eq_of_nodup hV (hpairs p hp).2]
  calc (V.map (wordStep pairs V.length damping s)).sum
      = (V.map fun _ ↦ (1 - damping) / V.length).sum + (V.map fun b ↦ (pairs.map fun p ↦
          (if p.2 = b then share pairs damping s p.1 else 0) +
            (if p.1 = b then share pairs damping s p.2 else 0)).sum).sum := List.sum_map_add
    _ = (1 - damping) + (pairs.map fun p ↦
          share pairs damping s p.1 + share pairs damping s p.2).sum := by
      rw [hbase, sum_map_sum_map_comm, List.map_congr_left hpass]
    _ = (1 - damping) + (V.map fun a ↦ share pairs damping s a * degree pairs a).sum := by
      simp only [degree, ← List.sum_map_mul_left]
      rw [sum_map_sum_map_comm V, List.map_congr_left hdeg]

/-- **Mass.** If every word of the vocabulary has positive degree, every iteration of the update
keeps total mass one. -/
theorem sum_wordRank (hV : V.Nodup) (hpairs : ∀ p ∈ pairs, p.1 ∈ V ∧ p.2 ∈ V) (hne : V ≠ [])
    (hdeg : ∀ a ∈ V, 0 < degree pairs a) :
    ∀ k, (V.map (wordRank pairs V.length damping k)).sum = 1
  | 0 => by
    simp only [wordRank, List.map_const', List.sum_replicate, nsmul_eq_mul]
    exact mul_one_div_cancel (by exact_mod_cast (List.length_pos.mpr hne).ne')
  | k + 1 => by
    have hk := sum_wordRank hV hpairs hne hdeg k
    rw [wordRank, sum_wordStep hV hpairs hne,
      List.map_congr_left fun a ha ↦ share_mul_degree _ (hdeg a ha), List.sum_map_mul_left, hk]
    ring

/-- Without co-occurrences every update is the base alone. -/
theorem wordRank_nil_succ (n : ℕ) (k : ℕ) (a : Str) :
    wordRank [] n damping (k + 1) a = (1 - damping) / n := by
  simp [wordRank, wordStep]

end Mass

/-! ## Every word of a varied stream has a neighbour -/

/-- In a list holding two different values, each value sits at one end of some pair of
neighbouring positions holding different values. -/
theorem exists_adjacent_ne {a : Str} : ∀ {l : List Str} {b : Str}, a ∈ l → b ∈ l → a ≠ b →
    ∃ k, ∃ h : k + 1 < l.length, l[k] ≠ l[k + 1] ∧ (l[k] = a ∨ l[k + 1] = a)
  | [], _, ha, _, _ => by simp at ha
  | [_], _, ha, hb, hab =>
    absurd ((List.mem_singleton.mp ha).trans (List.mem_singleton.mp hb).symm) hab
  | x :: y :: l, b, ha, hb, hab => by
    have shift : (∃ k, ∃ h : k + 1 < (y :: l).length,
        (y :: l)[k] ≠ (y :: l)[k + 1] ∧ ((y :: l)[k] = a ∨ (y :: l)[k + 1] = a)) →
        ∃ k, ∃ h : k + 1 < (x :: y :: l).length, (x :: y :: l)[k] ≠ (x :: y :: l)[k + 1] ∧
          ((x :: y :: l)[k] = a ∨ (x :: y :: l)[k + 1] = a) := fun ⟨k, hk, hne, hk'⟩ ↦
      ⟨k + 1, by simpa using hk, by simpa using hne, by simpa using hk'⟩
    by_cases hxy : x = y
    · subst hxy
      exact shift (@exists_adjacent_ne a (x :: l) b (by simpa using ha) (by simpa using hb) hab)
    by_cases hx : x = a
    · exact ⟨0, by simp, hxy, .inl hx⟩
    by_cases hy : y = a
    · exact ⟨0, by simp, hxy, .inr hy⟩
    exact shift (@exists_adjacent_ne a (y :: l) y (by simpa [Ne.symm hx] using ha)
      (List.mem_cons_self y l) (Ne.symm hy))

/-- **Positive degree.** With a window of at least two, every word of a filtered stream holding
two distinct words co-occurs with some other word. -/
theorem degree_coPairs_pos {filtered : List Str} {window : ℕ} (hw : 2 ≤ window)
    (hdistinct : ∃ x ∈ filtered, ∃ y ∈ filtered, x ≠ y) {a : Str} (ha : a ∈ filtered) :
    0 < degree (coPairs filtered window) a := by
  obtain ⟨b, hb, hab⟩ : ∃ b ∈ filtered, a ≠ b := by
    obtain ⟨x, hx, y, hy, hxy⟩ := hdistinct
    by_cases h : a = x
    · exact ⟨y, hy, h ▸ hxy⟩
    · exact ⟨x, hx, h⟩
  obtain ⟨k, hk, hne, hk'⟩ := exists_adjacent_ne ha hb hab
  have hmem : (filtered[k], filtered[k + 1]) ∈ coPairs filtered window := by
    refine List.mem_filterMap.mpr ⟨(k, k + 1), mem_windowPairs.mpr ⟨by omega, by omega, hk⟩, ?_⟩
    simp only [coPair, List.getD_eq_getElem?_getD, List.getElem?_eq_getElem hk,
      List.getElem?_eq_getElem (Nat.lt_of_succ_lt hk), Option.getD_some, if_pos hne]
  have hterm :
      0 < (if filtered[k] = a then (1 : ℚ) else 0) + if filtered[k + 1] = a then 1 else 0 := by
    rcases hk' with h | h <;> split_ifs <;> simp_all
  refine lt_of_lt_of_le hterm (List.single_le_sum (fun _ hx ↦ ?_) _ (List.mem_map_of_mem _ hmem))
  obtain ⟨p, -, rfl⟩ := List.mem_map.mp hx
  split_ifs <;> norm_num

/-! ## The scores `textrank` returns -/

/-- **Rank mass.** For a stream of at least three filtered tokens holding two distinct words, a
window of at least two and `0 ≤ damping < 1`, the scores `textrank` returns are positive and sum to
one, whatever the set order and the dict order. -/
theorem textrankWith_pos_and_sum_eq_one (ord : SetOrder) (itemOrder : DictOrder ((ℕ × ℕ) × ℚ))
    (tokens : List Str) (window : ℕ) (damping : ℚ) (iterations : ℕ)
    (hlen : 3 ≤ (tokens.filter isContentWord).length)
    (hdistinct : ∃ x ∈ tokens.filter isContentWord, ∃ y ∈ tokens.filter isContentWord, x ≠ y)
    (hw : 2 ≤ window) (hd₀ : 0 ≤ damping) (hd₁ : damping < 1) :
    (∀ p ∈ textrankWith ord itemOrder tokens window damping iterations, 0 < p.2) ∧
      ((textrankWith ord itemOrder tokens window damping iterations).map Prod.snd).sum = 1 := by
  rw [textrankWith_eq, if_neg (by omega)]
  have hne : ord.enum (tokens.filter isContentWord) ≠ [] := by
    obtain ⟨x, hx, -⟩ := hdistinct
    exact List.ne_nil_of_mem ((ord.mem_enum _ x).mpr hx)
  refine ⟨fun p hp ↦ ?_, ?_⟩
  · obtain ⟨a, -, rfl⟩ := List.mem_map.mp hp
    exact wordRank_pos hd₀ hd₁ (List.length_pos.mpr hne) _ _
  · rw [List.map_map]
    refine sum_wordRank (ord.nodup _) (fun p hp ↦ ?_) hne (fun a ha ↦ ?_) iterations
    · obtain ⟨h₁, h₂, -⟩ := mem_of_mem_coPairs hp
      exact ⟨(ord.mem_enum _ _).mpr h₁, (ord.mem_enum _ _).mpr h₂⟩
    · exact degree_coPairs_pos hw hdistinct ((ord.mem_enum _ a).mp ha)

theorem textrank_mass_alpha_beta :
    (∀ p ∈ textrank .firstSeen ["alpha".toList, "beta".toList, "alpha".toList] 5 (17 / 20) 30,
        0 < p.2) ∧
      ((textrank .firstSeen ["alpha".toList, "beta".toList, "alpha".toList] 5 (17 / 20) 30).map
        Prod.snd).sum = 1 :=
  textrankWith_pos_and_sum_eq_one _ _ _ _ _ _ (by decide) (by decide) (by decide) (by norm_num)
    (by norm_num)

/-- A stream of one repeated word keeps three filtered tokens but has no co-occurrence: after
thirty updates its only score is `1 - 0.85`. -/
theorem textrank_repeated_word :
    (List.replicate 3 "alpha".toList).filter isContentWord = List.replicate 3 "alpha".toList ∧
      textrank .firstSeen (List.replicate 3 "alpha".toList) 5 (17 / 20) 30
        = [("alpha".toList, 3 / 20)] := by
  have hf : (List.replicate 3 "alpha".toList).filter isContentWord
      = List.replicate 3 "alpha".toList := by decide
  have hpairs : coPairs (List.replicate 3 "alpha".toList) 5 = [] := by decide
  have henum : SetOrder.firstSeen.enum (List.replicate 3 "alpha".toList) = ["alpha".toList] := by
    decide
  refine ⟨hf, ?_⟩
  rw [textrank, textrankWith_eq, hf, if_neg (by decide), hpairs, henum]
  simp only [List.map_cons, List.map_nil, wordRank_nil_succ, List.length_singleton]
  norm_num

end Plexus
