import Plexus.Graph.PageRank
import Mathlib.Algebra.Order.Field.Basic

/-!
# The early exit of PageRank always fires

`pagerank` runs at most `max_iterations` updates and leaves the loop as soon as an update moves
the scores by less than `tolerance` in total. In exact arithmetic, for `damping < 1`, the early
exit is guaranteed, and how soon depends only on `damping` and `tolerance`. In floating point the
change stops shrinking at the rounding error of the sums, so a tolerance below that, such as
`1e-16`, may never be met and the cap is then reached; everything here is about the exact
computation.

## Why

One update is a contraction of the summed absolute difference by the factor `damping`:

  `diff(new(s), new(s')) ≤ damping * diff(s, s')`  (`scoreDiff_newScores_le`).

A node passes its change on in shares `1 / outgoing_count`, one per outgoing edge, so what all
nodes receive adds up to at most the change itself; a dangling node passes on nothing. Hence the
change the loop tests shrinks geometrically from at most `2` (`scoreDiff_iterate_le`), and the
loop leaves after at most `K + 1` updates for any `K` with `2 * damping ^ K < tolerance`
(`pagerank_stops_within`). With the script's defaults, `damping = 0.85` and `tolerance = 1e-6`,
`K = 90` will do: on a graph with distinct ids the cap of 100 iterations is never reached.

## The cap does not matter

The loop leaves at its first update whose change is below `tolerance`, whatever the cap, as long
as the cap lets it get there (`iterateScores_congr_of_lt`). So every `max_iterations` of at least
`K + 1` gives the same scores (`pagerank_maxIterations_congr`): with the defaults, any cap from
`91` up returns what the cap of `100` does.
-/

namespace Plexus

variable {α : Type} [DecidableEq α]

/-! ## One update is a contraction -/

/-- `|∑ f - ∑ g| ≤ ∑ |f - g|` over a list. -/
theorem abs_sum_map_sub_le {β : Type} (l : List β) (f g : β → ℚ) :
    |(l.map f).sum - (l.map g).sum| ≤ (l.map fun b ↦ |f b - g b|).sum := by
  induction l with
  | nil => simp
  | cons b l ih =>
    simp only [List.map_cons, List.sum_cons]
    calc |f b + (l.map f).sum - (g b + (l.map g).sum)|
        = |(f b - g b) + ((l.map f).sum - (l.map g).sum)| := by rw [add_sub_add_comm]
      _ ≤ |f b - g b| + |(l.map f).sum - (l.map g).sum| := abs_add _ _
      _ ≤ _ := add_le_add_left ih _

omit [DecidableEq α] in
/-- What a node receives changes by at most the shares of its sources' changes. -/
theorem abs_rankSum_sub_le (adj : Adjacency α) (s s' : α → ℚ) (nid : α) :
    |rankSum adj s nid - rankSum adj s' nid| ≤ rankSum adj (fun a ↦ |s a - s' a|) nid := by
  rw [rankSum_eq, rankSum_eq, rankSum_eq]
  refine (abs_sum_map_sub_le _ _ _).trans_eq
    (congrArg List.sum (List.map_congr_left fun src _ ↦ ?_))
  rw [← sub_div, abs_div, Nat.abs_cast]

/-- **Contraction.** Over distinct ids one update brings any two score vectors closer by the
factor `damping`. -/
theorem scoreDiff_newScores_le {ids : List α} (edges : List (Edge α)) (hids : ids.Nodup)
    {damping : ℚ} (hd₀ : 0 ≤ damping) (s s' : α → ℚ) :
    scoreDiff ids (newScores ids (buildAdjacency ids edges) damping s)
      (newScores ids (buildAdjacency ids edges) damping s') ≤ damping * scoreDiff ids s s' := by
  set adj := buildAdjacency ids edges
  set d : α → ℚ := fun a ↦ |s a - s' a|
  have hstep : ∀ nid, |newScores ids adj damping s nid - newScores ids adj damping s' nid|
      ≤ damping * rankSum adj d nid := fun nid ↦ by
    simp only [newScores]
    rw [add_sub_add_left_eq_sub, ← mul_sub, abs_mul, abs_of_nonneg hd₀]
    exact mul_le_mul_of_nonneg_left (abs_rankSum_sub_le adj s s' nid) hd₀
  calc scoreDiff ids (newScores ids adj damping s) (newScores ids adj damping s')
      ≤ (ids.map fun nid ↦ damping * rankSum adj d nid).sum := List.sum_le_sum fun nid _ ↦ hstep nid
    _ = damping * ((ids.map d).sum - danglingMass ids adj d) := by
        rw [List.sum_map_mul_left, sum_rankSum hids]
    _ ≤ damping * scoreDiff ids s s' :=
        mul_le_mul_of_nonneg_left (sub_le_self _ (danglingMass_nonneg ids adj fun _ ↦ abs_nonneg _))
          hd₀

/-! ## The change the loop tests -/

section Loop

variable {ids : List α} (edges : List (Edge α)) (hids : ids.Nodup) {damping : ℚ}
  (hd₀ : 0 ≤ damping)
include hids hd₀

/-- **Geometric decay.** The change made by update `j + 1` is at most `damping ^ j` times the
change made by the first. -/
theorem scoreDiff_iterate_le (s : α → ℚ) (j : ℕ) :
    scoreDiff ids ((newScores ids (buildAdjacency ids edges) damping)^[j + 1] s)
        ((newScores ids (buildAdjacency ids edges) damping)^[j] s)
      ≤ damping ^ j * scoreDiff ids (newScores ids (buildAdjacency ids edges) damping s) s := by
  set N := newScores ids (buildAdjacency ids edges) damping
  induction j with
  | zero => simp
  | succ j ih =>
    calc scoreDiff ids (N^[j + 1 + 1] s) (N^[j + 1] s)
        = scoreDiff ids (N (N^[j + 1] s)) (N (N^[j] s)) := by
          rw [Function.iterate_succ_apply' _ (j + 1), Function.iterate_succ_apply' _ j]
      _ ≤ damping * scoreDiff ids (N^[j + 1] s) (N^[j] s) :=
          scoreDiff_newScores_le edges hids hd₀ _ _
      _ ≤ damping * (damping ^ j * scoreDiff ids (N s) s) := mul_le_mul_of_nonneg_left ih hd₀
      _ = damping ^ (j + 1) * scoreDiff ids (N s) s := by ring

/-- From the uniform start the first update changes the scores by at most `2`: both are
sub-distributions. -/
theorem scoreDiff_uniform_le (hne : ids ≠ []) (hd₁ : damping < 1) :
    scoreDiff ids (newScores ids (buildAdjacency ids edges) damping fun _ ↦ 1 / ids.length)
      (fun _ ↦ 1 / ids.length) ≤ 2 := by
  have hu := subDistribution_uniform hne
  have hN : SubDistribution ids
      (newScores ids (buildAdjacency ids edges) damping fun _ ↦ 1 / ids.length) :=
    hu.newScores hids hne hd₀ hd₁
  calc scoreDiff ids (newScores ids (buildAdjacency ids edges) damping fun _ ↦ 1 / ids.length)
        (fun _ ↦ 1 / ids.length)
      ≤ (ids.map fun a ↦ newScores ids (buildAdjacency ids edges) damping
          (fun _ ↦ 1 / ids.length) a + 1 / ids.length).sum :=
        List.sum_le_sum fun a _ ↦ (abs_sub _ _).trans_eq
          (by rw [abs_of_pos (hN.pos a), abs_of_pos (hu.pos a)])
    _ ≤ 1 + 1 := by
        rw [List.sum_map_add]
        exact add_le_add hN.mass_le hu.mass_le
    _ = 2 := by norm_num

/-- The update after the `K`-th moves the scores by less than `tolerance`, for any `K` with
`2 * damping ^ K < tolerance`. -/
theorem scoreDiff_uniform_iterate_lt (hne : ids ≠ []) (hd₁ : damping < 1) {tolerance : ℚ} {K : ℕ}
    (hK : 2 * damping ^ K < tolerance) :
    scoreDiff ids ((newScores ids (buildAdjacency ids edges) damping)^[K + 1]
        fun _ ↦ 1 / ids.length)
      ((newScores ids (buildAdjacency ids edges) damping)^[K] fun _ ↦ 1 / ids.length)
      < tolerance :=
  calc _ ≤ damping ^ K * scoreDiff ids
          (newScores ids (buildAdjacency ids edges) damping fun _ ↦ 1 / ids.length)
          (fun _ ↦ 1 / ids.length) := scoreDiff_iterate_le edges hids hd₀ _ K
    _ ≤ damping ^ K * 2 :=
        mul_le_mul_of_nonneg_left (scoreDiff_uniform_le edges hids hd₀ hne hd₁) (pow_nonneg hd₀ K)
    _ < tolerance := by linarith

end Loop

omit [DecidableEq α] in
/-- The loop leaves at the latest after the update that follows the first iterate `J` whose next
change is below `tolerance`. -/
theorem iterateScores_stops (ids : List α) (adj : Adjacency α) (damping tolerance : ℚ) :
    ∀ (k : ℕ) (s : α → ℚ) (J : ℕ),
      scoreDiff ids ((newScores ids adj damping)^[J + 1] s) ((newScores ids adj damping)^[J] s)
        < tolerance →
      ∃ j ≤ J + 1, j ≤ k ∧
        iterateScores ids adj damping tolerance k s = (newScores ids adj damping)^[j] s
  | 0, _, _, _ => ⟨0, Nat.zero_le _, le_rfl, rfl⟩
  | k + 1, s, J, hJ => by
    rw [iterateScores]
    split_ifs with hstop
    · exact ⟨1, by omega, by omega, rfl⟩
    · cases J with
      | zero => exact absurd hJ hstop
      | succ J =>
        obtain ⟨j, hjJ, hjk, h⟩ :=
          iterateScores_stops ids adj damping tolerance k (newScores ids adj damping s) J hJ
        exact ⟨j + 1, by omega, by omega, h⟩

/-- **The loop stops early.** For distinct ids and `0 ≤ damping < 1`, `pagerank` computed in
exact arithmetic returns the scores after at most `K + 1` updates, for any `K` with
`2 * damping ^ K < tolerance`, however large `max_iterations` is. -/
theorem pagerank_stops_within (nodes : List (Node α)) (edges : List (Edge α)) (damping : ℚ)
    (maxIterations : ℕ) (tolerance : ℚ) (hids : (nodeIds nodes).Nodup) (hne : nodes ≠ [])
    (hd₀ : 0 ≤ damping) (hd₁ : damping < 1) {K : ℕ} (hK : 2 * damping ^ K < tolerance) :
    ∃ j ≤ K + 1, j ≤ maxIterations ∧
      (pagerank nodes edges damping maxIterations tolerance).map Prod.snd
        = (nodeIds nodes).map ((newScores (nodeIds nodes) (buildAdjacency (nodeIds nodes) edges)
            damping)^[j] fun _ ↦ 1 / (nodeIds nodes).length) := by
  have hJ := scoreDiff_uniform_iterate_lt edges hids hd₀ (by simpa [nodeIds] using hne) hd₁ hK
  obtain ⟨j, hjK, hjk, h⟩ := iterateScores_stops _ _ _ _ maxIterations _ K hJ
  refine ⟨j, hjK, hjk, ?_⟩
  rw [pagerank, if_neg (by simpa [nodeIds] using hne), firstOccurrences_eq_self hids]
  simp only [List.map_map, Function.comp_def, h]

/-- With the script's defaults the two-node cycle is scored after at most 91 of the 100
iterations. -/
theorem pagerank_defaults_stop_by_91 :
    2 * (17 / 20 : ℚ) ^ 90 < 1 / 1000000 ∧ ∃ j ≤ 90 + 1, j ≤ 100 ∧
      (pagerank [⟨"a"⟩, ⟨"b"⟩] [⟨"a", "b"⟩, ⟨"b", "a"⟩] (17 / 20) 100 (1 / 1000000)).map Prod.snd
        = (nodeIds [(⟨"a"⟩ : Node String), ⟨"b"⟩]).map
            ((newScores (nodeIds [(⟨"a"⟩ : Node String), ⟨"b"⟩])
              (buildAdjacency (nodeIds [(⟨"a"⟩ : Node String), ⟨"b"⟩]) [⟨"a", "b"⟩, ⟨"b", "a"⟩])
              (17 / 20))^[j] fun _ ↦ 1 / (nodeIds [(⟨"a"⟩ : Node String), ⟨"b"⟩]).length) :=
  ⟨by norm_num, pagerank_stops_within _ _ _ _ _ (by decide) (by simp) (by norm_num) (by norm_num)
    (by norm_num)⟩

omit [DecidableEq α] in
/-- Two caps past the update whose change is first below `tolerance` give the same scores. -/
theorem iterateScores_congr_of_lt (ids : List α) (adj : Adjacency α) (damping tolerance : ℚ) :
    ∀ (J : ℕ) (s : α → ℚ),
      scoreDiff ids ((newScores ids adj damping)^[J + 1] s) ((newScores ids adj damping)^[J] s)
        < tolerance →
      ∀ {k k' : ℕ}, J + 1 ≤ k → J + 1 ≤ k' →
        iterateScores ids adj damping tolerance k s = iterateScores ids adj damping tolerance k' s
  | J, s, hJ, k + 1, k' + 1, hk, hk' => by
    rw [iterateScores, iterateScores]
    split_ifs with hstop
    · rfl
    · cases J with
      | zero => exact absurd hJ hstop
      | succ J =>
        exact iterateScores_congr_of_lt ids adj damping tolerance J _ hJ (by omega) (by omega)

/-- **The cap is not binding.** For distinct ids and `0 ≤ damping < 1`, `pagerank` computed in
exact arithmetic returns the same scores for every `max_iterations` of at least `K + 1`, for any
`K` with `2 * damping ^ K < tolerance`. -/
theorem pagerank_maxIterations_congr (nodes : List (Node α)) (edges : List (Edge α))
    (damping tolerance : ℚ) (hids : (nodeIds nodes).Nodup) (hne : nodes ≠ []) (hd₀ : 0 ≤ damping)
    (hd₁ : damping < 1) {K : ℕ} (hK : 2 * damping ^ K < tolerance) {m m' : ℕ} (hm : K + 1 ≤ m)
    (hm' : K + 1 ≤ m') :
    pagerank nodes edges damping m tolerance = pagerank nodes edges damping m' tolerance := by
  have hJ := scoreDiff_uniform_iterate_lt edges hids hd₀ (by simpa [nodeIds] using hne) hd₁ hK
  simp only [pagerank]
  rw [iterateScores_congr_of_lt _ _ _ _ K _ hJ hm hm']

/-- With the script's defaults, a cap of 91 iterations scores the two-node cycle as the cap of
100 does. -/
theorem pagerank_defaults_cap_91 :
    2 * (17 / 20 : ℚ) ^ 90 < 1 / 1000000 ∧
      pagerank [⟨"a"⟩, ⟨"b"⟩] [⟨"a", "b"⟩, ⟨"b", "a"⟩] (17 / 20) 100 (1 / 1000000)
        = pagerank [⟨"a"⟩, ⟨"b"⟩] [⟨"a", "b"⟩, ⟨"b", "a"⟩] (17 / 20) 91 (1 / 1000000) :=
  ⟨by norm_num, pagerank_maxIterations_congr _ _ _ _ (by decide) (by simp) (by norm_num)
    (by norm_num) (K := 90) (by norm_num) (by norm_num) (by norm_num)⟩

end Plexus
