import Plexus.Graph.Export
import Mathlib.Algebra.Order.BigOperators.Group.List
import Mathlib.Algebra.BigOperators.Ring.List
import Mathlib.Tactic.NormNum.Ineq
import Mathlib.Tactic.Linarith

/-!
# PageRank

`run_pagerank.py` scores the nodes of a graph export by a fixed number of power-iteration steps,
stopping early once an update moves the scores by less than `tolerance` in total. Scores are
floats in the script and exact rationals here.

## The model

The adjacency is built by a fold over the edges (`buildAdjacency`), each score update is
`newScores`, and the loop with its early exit is `iterateScores`. Whatever the tolerance, the loop
returns the result of some number `j` of updates with `1 ≤ j ≤ max_iterations` when
`max_iterations ≥ 1` (`iterateScores_eq_iterate`), so every invariant of a single update holds of
the returned scores.

## Where the mass goes

Summed over distinct node ids, one update keeps `1 - damping` as the uniform base and passes on
`damping` times the mass of every node with an outgoing edge:

  `∑ new = (1 - damping) + damping * (∑ scores - danglingMass)`  (`sum_newScores`).

A node with no edge to a node id is the source of no entry of `incoming`, so no update passes its
score on, and nothing puts it back. The guard `if outgoing_count[src] > 0` plays no part in this:
it never fires, since every source listed in `incoming` came with an edge that was also counted in
`outgoing_count` (`outgoingCount_pos_of_mem_incoming`). The iteration is therefore a distribution
only on graphs where every node has an outgoing edge among the node ids; `nx.pagerank`, which the
docstring names as the replacement, spreads the dangling mass over all nodes instead. With a
dangling node, positive damping and at least one iteration, the total is strictly below one.
-/

namespace Plexus

variable {α : Type} [DecidableEq α]

/-! ## The adjacency -/

/-- The two dicts `pagerank` builds from the edges, as functions of the node id:
`incoming[tgt]` lists the sources of the edges into `tgt`, `outgoing_count[src]` counts the edges
out of `src`. -/
structure Adjacency (α : Type) where
  /-- `incoming[tgt]`: the sources of the edges into `tgt`, in edge order. -/
  incoming : α → List α
  /-- `outgoing_count[src]`: the number of edges out of `src`. -/
  outgoingCount : α → ℕ

/-- One pass of the edge loop: an edge between two node ids is appended to `incoming[tgt]` and
counted in `outgoing_count[src]`; any other edge is skipped. -/
def addEdge (ids : List α) (adj : Adjacency α) (e : Edge α) : Adjacency α :=
  if e.source ∈ ids ∧ e.target ∈ ids then
    { incoming := fun x ↦ if x = e.target then adj.incoming x ++ [e.source] else adj.incoming x
      outgoingCount := fun x ↦
        if x = e.source then adj.outgoingCount x + 1 else adj.outgoingCount x }
  else adj

/-- The edge loop, from `incoming = {nid: [] ...}` and `outgoing_count = {nid: 0 ...}`. -/
def buildAdjacency (ids : List α) (edges : List (Edge α)) : Adjacency α :=
  edges.foldl (addEdge ids) ⟨fun _ ↦ [], fun _ ↦ 0⟩

theorem foldl_addEdge (ids : List α) (edges : List (Edge α)) (adj : Adjacency α) (x : α) :
    (edges.foldl (addEdge ids) adj).incoming x
        = adj.incoming x ++ ((validEdges ids edges).filter (·.target = x)).map Edge.source ∧
      (edges.foldl (addEdge ids) adj).outgoingCount x
        = adj.outgoingCount x + ((validEdges ids edges).filter (·.source = x)).length := by
  induction edges generalizing adj with
  | nil => simp [validEdges]
  | cons e edges ih =>
    obtain ⟨hin, hout⟩ := ih (addEdge ids adj e)
    rw [List.foldl_cons, hin, hout, validEdges_cons]
    by_cases hv : e.source ∈ ids ∧ e.target ∈ ids
    · simp only [addEdge, if_pos hv, List.filter_cons, decide_eq_true_eq]
      constructor
      · by_cases h : x = e.target <;> simp [h, @eq_comm _ e.target]
      · by_cases h : x = e.source <;> simp [h, @eq_comm _ e.source]
        omega
    · simp [addEdge, hv]

/-- **Adjacency.** `incoming[x]` holds the sources of the valid edges into `x`, in edge order. -/
theorem incoming_buildAdjacency (ids : List α) (edges : List (Edge α)) (x : α) :
    (buildAdjacency ids edges).incoming x
      = ((validEdges ids edges).filter (·.target = x)).map Edge.source :=
  (foldl_addEdge ids edges _ x).1

/-- **Adjacency.** `outgoing_count[x]` is the number of valid edges out of `x`. -/
theorem outgoingCount_buildAdjacency (ids : List α) (edges : List (Edge α)) (x : α) :
    (buildAdjacency ids edges).outgoingCount x
      = ((validEdges ids edges).filter (·.source = x)).length :=
  (foldl_addEdge ids edges _ x).2.trans (Nat.zero_add _)

/-- The guard `outgoing_count[src] > 0` of the update never fires: a source listed in
`incoming[nid]` came with a valid edge, which the same pass counted in `outgoing_count[src]`. -/
theorem outgoingCount_pos_of_mem_incoming {ids : List α} {edges : List (Edge α)} {src nid : α}
    (h : src ∈ (buildAdjacency ids edges).incoming nid) :
    0 < (buildAdjacency ids edges).outgoingCount src := by
  rw [incoming_buildAdjacency] at h
  obtain ⟨e, he, rfl⟩ := List.mem_map.mp h
  rw [outgoingCount_buildAdjacency]
  exact List.length_pos_of_mem (List.mem_filter.mpr ⟨(List.mem_filter.mp he).1, by simp⟩)

/-! ## One update and the loop -/

/-- `rank_sum`: each source into `nid` passes on its score divided by its out-degree, and a
source without outgoing edges is skipped. -/
def rankSum (adj : Adjacency α) (scores : α → ℚ) (nid : α) : ℚ :=
  (((adj.incoming nid).filter fun src ↦ 0 < adj.outgoingCount src).map
    fun src ↦ scores src / adj.outgoingCount src).sum

/-- `new_scores[nid] = (1 - damping) / n + damping * rank_sum`, where `n = len(node_ids)`. -/
def newScores (ids : List α) (adj : Adjacency α) (damping : ℚ) (scores : α → ℚ) : α → ℚ :=
  fun nid ↦ (1 - damping) / ids.length + damping * rankSum adj scores nid

/-- `diff = sum(abs(new_scores[nid] - scores[nid]) for nid in node_ids)`. -/
def scoreDiff (ids : List α) (new old : α → ℚ) : ℚ :=
  (ids.map fun nid ↦ |new nid - old nid|).sum

/-- The loop `for _ in range(max_iterations)` with `k` passes left: after each update it stops
once the update moved the scores by less than `tolerance`. -/
def iterateScores (ids : List α) (adj : Adjacency α) (damping tolerance : ℚ) :
    ℕ → (α → ℚ) → α → ℚ
  | 0, scores => scores
  | k + 1, scores =>
    if scoreDiff ids (newScores ids adj damping scores) scores < tolerance then
      newScores ids adj damping scores
    else iterateScores ids adj damping tolerance k (newScores ids adj damping scores)

/-- `pagerank(nodes, edges, damping, max_iterations, tolerance)`: the scores dict, as its items in
iteration order (the order of first occurrence of the ids). -/
def pagerank (nodes : List (Node α)) (edges : List (Edge α)) (damping : ℚ)
    (maxIterations : ℕ) (tolerance : ℚ) : List (α × ℚ) :=
  if (nodeIds nodes).length = 0 then []
  else
    let adj := buildAdjacency (nodeIds nodes) edges
    let scores := iterateScores (nodeIds nodes) adj damping tolerance maxIterations
      fun _ ↦ 1 / (nodeIds nodes).length
    (firstOccurrences (nodeIds nodes)).map fun nid ↦ (nid, scores nid)

omit [DecidableEq α] in
/-- **The loop.** Whatever the tolerance, the loop returns the scores after `j` updates, for some
`j ≤ k` that is positive when `k` is. -/
theorem iterateScores_eq_iterate (ids : List α) (adj : Adjacency α) (damping tolerance : ℚ) :
    ∀ (k : ℕ) (scores : α → ℚ), ∃ j ≤ k, (0 < k → 0 < j) ∧
      iterateScores ids adj damping tolerance k scores = (newScores ids adj damping)^[j] scores
  | 0, _ => ⟨0, le_rfl, by simp, rfl⟩
  | k + 1, scores => by
    rw [iterateScores]
    split_ifs
    · exact ⟨1, by omega, by simp, rfl⟩
    · obtain ⟨j, hj, -, h⟩ := iterateScores_eq_iterate ids adj damping tolerance k
        (newScores ids adj damping scores)
      exact ⟨j + 1, by omega, by simp, h⟩

/-- The scores `pagerank` returns, for distinct ids: those of `j` updates from the uniform start,
for some `j ≤ max_iterations` that is positive when `max_iterations` is. -/
theorem pagerank_eq_iterate (nodes : List (Node α)) (edges : List (Edge α)) (damping : ℚ)
    (maxIterations : ℕ) (tolerance : ℚ) (hids : (nodeIds nodes).Nodup) (hne : nodes ≠ []) :
    ∃ j ≤ maxIterations, (0 < maxIterations → 0 < j) ∧
      (pagerank nodes edges damping maxIterations tolerance).map Prod.snd
        = (nodeIds nodes).map ((newScores (nodeIds nodes) (buildAdjacency (nodeIds nodes) edges)
            damping)^[j] fun _ ↦ 1 / (nodeIds nodes).length) := by
  obtain ⟨j, hj, hpos, h⟩ := iterateScores_eq_iterate (nodeIds nodes)
    (buildAdjacency (nodeIds nodes) edges) damping tolerance maxIterations
    fun _ ↦ 1 / (nodeIds nodes).length
  refine ⟨j, hj, hpos, ?_⟩
  rw [pagerank, if_neg (by simpa [nodeIds] using hne), firstOccurrences_eq_self hids]
  simp only [List.map_map, Function.comp_def, h]

/-! ## Mass -/

section Mass

variable {ids : List α} {edges : List (Edge α)} {damping : ℚ}

/-- The mass on node ids without outgoing edges: the next update drops it. -/
def danglingMass (ids : List α) (adj : Adjacency α) (scores : α → ℚ) : ℚ :=
  ((ids.filter fun a ↦ adj.outgoingCount a = 0).map scores).sum

omit [DecidableEq α] in
/-- On any adjacency the guard only skips terms that are zero in exact arithmetic, since
`x / 0 = 0`; on the one the edge loop builds it skips none (`outgoingCount_pos_of_mem_incoming`). -/
theorem rankSum_eq (adj : Adjacency α) (scores : α → ℚ) (nid : α) :
    rankSum adj scores nid
      = ((adj.incoming nid).map fun src ↦ scores src / adj.outgoingCount src).sum := by
  rw [rankSum, sum_map_filter_eq]
  refine congrArg List.sum (List.map_congr_left fun src _ ↦ ?_)
  by_cases h : 0 < adj.outgoingCount src
  · simp [h]
  · simp [Nat.eq_zero_of_not_pos h]

/-- **Passing on.** Over distinct ids, what all nodes receive is the mass of the nodes that have
an outgoing edge. -/
theorem sum_rankSum (hids : ids.Nodup) (scores : α → ℚ) :
    (ids.map (rankSum (buildAdjacency ids edges) scores)).sum
      = (ids.map scores).sum - danglingMass ids (buildAdjacency ids edges) scores := by
  set adj := buildAdjacency ids edges
  set w : α → ℚ := fun a ↦ scores a / adj.outgoingCount a
  have hsplit := List.sum_map_filter_add_sum_map_filter_not (fun a ↦ adj.outgoingCount a = 0)
    scores (l := ids)
  calc (ids.map (rankSum adj scores)).sum
      = (ids.map fun t ↦ ((validEdges ids edges).map fun e ↦
          if e.target = t then w e.source else 0).sum).sum := by
        refine congrArg List.sum (List.map_congr_left fun t _ ↦ ?_)
        simp only [rankSum_eq, adj, incoming_buildAdjacency, List.map_map, Function.comp_def,
          sum_map_filter_eq, decide_eq_true_eq]
    _ = ((validEdges ids edges).map fun e ↦ w e.source).sum := by
        rw [sum_map_sum_map_comm]
        exact congrArg List.sum (List.map_congr_left fun e he ↦
          sum_map_ite_eq_of_nodup hids (mem_validEdges.mp he).2.2 fun _ ↦ w e.source)
    _ = ((validEdges ids edges).map fun e ↦
          (ids.map fun a ↦ if e.source = a then w a else 0).sum).sum :=
        congrArg List.sum (List.map_congr_left fun e he ↦
          (sum_map_ite_eq_of_nodup hids (mem_validEdges.mp he).2.1 w).symm)
    _ = (ids.map fun a ↦ adj.outgoingCount a * w a).sum := by
        rw [sum_map_sum_map_comm]
        refine congrArg List.sum (List.map_congr_left fun a _ ↦ ?_)
        have hcount := sum_map_filter_eq (validEdges ids edges) (·.source = a) fun _ ↦ w a
        simp only [List.map_const', List.sum_replicate, nsmul_eq_mul, decide_eq_true_eq] at hcount
        rw [← hcount, show adj.outgoingCount a = _ from outgoingCount_buildAdjacency ids edges a]
    _ = ((ids.filter fun a ↦ ¬adj.outgoingCount a = 0).map scores).sum := by
        rw [sum_map_filter_eq]
        refine congrArg List.sum (List.map_congr_left fun a _ ↦ ?_)
        by_cases h : adj.outgoingCount a = 0
        · simp [h]
        · simp [h, w, mul_div_cancel₀]
    _ = (ids.map scores).sum - danglingMass ids adj scores := by
        rw [danglingMass, ← hsplit, add_sub_cancel_left]

/-- **Mass, one step.** Over distinct, non-empty ids one update keeps `1 - damping` as the base
and passes on `damping` times the mass of the nodes with an outgoing edge. -/
theorem sum_newScores (hids : ids.Nodup) (hne : ids ≠ []) (scores : α → ℚ) :
    (ids.map (newScores ids (buildAdjacency ids edges) damping scores)).sum
      = (1 - damping) + damping *
          ((ids.map scores).sum - danglingMass ids (buildAdjacency ids edges) scores) := by
  have hn : (ids.length : ℚ) ≠ 0 := by exact_mod_cast (List.length_pos.mpr hne).ne'
  unfold newScores
  rw [List.sum_map_add, List.map_const', List.sum_replicate, nsmul_eq_mul, List.sum_map_mul_left,
    mul_div_cancel₀ _ hn, sum_rankSum hids]

omit [DecidableEq α] in
theorem danglingMass_nonneg (ids : List α) (adj : Adjacency α) {scores : α → ℚ}
    (hs : ∀ a, 0 ≤ scores a) : 0 ≤ danglingMass ids adj scores :=
  List.sum_nonneg fun _ hx ↦ by
    obtain ⟨a, -, rfl⟩ := List.mem_map.mp hx
    exact hs a

/-- A node id is dangling exactly when no edge leads from it to a node id. -/
theorem outgoingCount_pos_iff {a : α} (ha : a ∈ ids) :
    0 < (buildAdjacency ids edges).outgoingCount a ↔
      ∃ e ∈ edges, e.source = a ∧ e.target ∈ ids := by
  rw [outgoingCount_buildAdjacency, List.length_pos_iff_exists_mem]
  constructor
  · rintro ⟨e, he⟩
    simp only [List.mem_filter, mem_validEdges, decide_eq_true_eq] at he
    exact ⟨e, he.1.1, he.2, he.1.2.2⟩
  · rintro ⟨e, he, rfl, ht⟩
    exact ⟨e, by simp [he, ha, ht]⟩

/-- Without dangling nodes nothing is dropped. -/
theorem danglingMass_eq_zero (hout : ∀ a ∈ ids, ∃ e ∈ edges, e.source = a ∧ e.target ∈ ids)
    (scores : α → ℚ) : danglingMass ids (buildAdjacency ids edges) scores = 0 := by
  rw [danglingMass, List.filter_eq_nil_iff.mpr fun a ha ↦ by
    simpa [Nat.pos_iff_ne_zero] using (outgoingCount_pos_iff ha).mpr (hout a ha)]
  rfl

/-- A dangling node with positive score drops positive mass. -/
theorem danglingMass_pos {a : α} (ha : a ∈ ids) (hdang : ∀ e ∈ edges, e.source = a → e.target ∉ ids)
    {scores : α → ℚ} (hs : ∀ a, 0 < scores a) :
    0 < danglingMass ids (buildAdjacency ids edges) scores := by
  have h0 : (buildAdjacency ids edges).outgoingCount a = 0 :=
    Nat.eq_zero_of_not_pos fun h ↦ by
      obtain ⟨e, he, hsrc, ht⟩ := (outgoingCount_pos_iff ha).mp h
      exact hdang e he hsrc ht
  exact lt_of_lt_of_le (hs a) (List.single_le_sum (fun _ hx ↦ by
    obtain ⟨b, -, rfl⟩ := List.mem_map.mp hx
    exact (hs b).le) _ (List.mem_map_of_mem _ (List.mem_filter.mpr ⟨ha, by simp [h0]⟩)))

/-! ## The invariant -/

/-- What every iterate satisfies for `0 ≤ damping < 1`: positive scores, at most unit mass. -/
structure SubDistribution (ids : List α) (scores : α → ℚ) : Prop where
  /-- Every score is positive. -/
  pos : ∀ a, 0 < scores a
  /-- The scores of the ids sum to at most one. -/
  mass_le : (ids.map scores).sum ≤ 1

omit [DecidableEq α] in
/-- The uniform start `1.0 / n` carries mass exactly one. -/
theorem sum_uniform (hne : ids ≠ []) : (ids.map fun _ ↦ (1 : ℚ) / ids.length).sum = 1 := by
  rw [List.map_const', List.sum_replicate, nsmul_eq_mul]
  exact mul_one_div_cancel (by exact_mod_cast (List.length_pos.mpr hne).ne')

omit [DecidableEq α] in
theorem subDistribution_uniform (hne : ids ≠ []) : SubDistribution ids fun _ ↦ 1 / ids.length :=
  ⟨fun _ ↦ one_div_pos.mpr (by exact_mod_cast List.length_pos.mpr hne), (sum_uniform hne).le⟩

section Step

variable (hids : ids.Nodup) (hne : ids ≠ []) (hd₀ : 0 ≤ damping) (hd₁ : damping < 1)
include hids hne hd₀ hd₁

/-- **The invariant, one step.** -/
theorem SubDistribution.newScores {scores : α → ℚ} (hs : SubDistribution ids scores) :
    SubDistribution ids (newScores ids (buildAdjacency ids edges) damping scores) := by
  refine ⟨fun nid ↦ ?_, ?_⟩
  · refine add_pos_of_pos_of_nonneg
      (div_pos (sub_pos.mpr hd₁) (by exact_mod_cast List.length_pos.mpr hne)) ?_
    refine mul_nonneg hd₀ (List.sum_nonneg fun _ hx ↦ ?_)
    obtain ⟨src, -, rfl⟩ := List.mem_map.mp hx
    exact div_nonneg (hs.pos src).le (Nat.cast_nonneg _)
  · have hdm := danglingMass_nonneg ids (buildAdjacency ids edges) fun a ↦ (hs.pos a).le
    have := mul_le_mul_of_nonneg_left
      (by linarith [hs.mass_le] : (ids.map scores).sum - danglingMass ids _ scores ≤ 1) hd₀
    rw [sum_newScores hids hne]
    linarith

/-- **The invariant.** Every iterate from the uniform start is a sub-distribution. -/
theorem subDistribution_iterate (edges : List (Edge α)) (j : ℕ) :
    SubDistribution ids ((newScores ids (buildAdjacency ids edges) damping)^[j]
      fun _ ↦ 1 / ids.length) := by
  induction j with
  | zero => exact subDistribution_uniform hne
  | succ j ih =>
    rw [Function.iterate_succ_apply']
    exact ih.newScores hids hne hd₀ hd₁

omit hd₀ hd₁ in
/-- **Conservation.** Without dangling nodes every iterate carries mass exactly one. -/
theorem sum_iterate_eq_one
    (hout : ∀ a ∈ ids, ∃ e ∈ edges, e.source = a ∧ e.target ∈ ids) (j : ℕ) :
    (ids.map ((newScores ids (buildAdjacency ids edges) damping)^[j]
      fun _ ↦ 1 / ids.length)).sum = 1 := by
  induction j with
  | zero => exact sum_uniform hne
  | succ j ih => rw [Function.iterate_succ_apply', sum_newScores hids hne, ih,
      danglingMass_eq_zero hout, sub_zero, mul_one, sub_add_cancel]

/-- **Leak.** With a dangling node and positive damping, every update loses mass. -/
theorem sum_iterate_lt_one (hd : 0 < damping) {a : α} (ha : a ∈ ids)
    (hdang : ∀ e ∈ edges, e.source = a → e.target ∉ ids) (j : ℕ) :
    (ids.map ((newScores ids (buildAdjacency ids edges) damping)^[j + 1]
      fun _ ↦ 1 / ids.length)).sum < 1 := by
  rw [Function.iterate_succ_apply', sum_newScores hids hne]
  set s := (newScores ids (buildAdjacency ids edges) damping)^[j] fun _ ↦ 1 / ids.length
  have hs : SubDistribution ids s := subDistribution_iterate hids hne hd₀ hd₁ edges j
  have hdm := danglingMass_pos ha hdang hs.pos
  have := mul_lt_mul_of_pos_left
    (by linarith [hs.mass_le] : (ids.map s).sum - danglingMass ids _ s < 1) hd
  linarith

end Step

end Mass

/-! ## The scores `pagerank` returns -/

/-- **Rank mass.** For distinct node ids and `0 ≤ damping < 1`, whatever the tolerance and the
iteration limit, the scores are positive and sum to at most one. They sum to exactly one when
every node has an edge to a node id, and to strictly less than one when some node has none, the
damping is positive and at least one iteration runs. -/
theorem pagerank_pos_and_mass (nodes : List (Node α)) (edges : List (Edge α)) (damping : ℚ)
    (maxIterations : ℕ) (tolerance : ℚ) (hids : (nodeIds nodes).Nodup) (hd₀ : 0 ≤ damping)
    (hd₁ : damping < 1) :
    (∀ p ∈ pagerank nodes edges damping maxIterations tolerance, 0 < p.2) ∧
      ((pagerank nodes edges damping maxIterations tolerance).map Prod.snd).sum ≤ 1 ∧
      (nodes ≠ [] →
        (∀ a ∈ nodeIds nodes, ∃ e ∈ edges, e.source = a ∧ e.target ∈ nodeIds nodes) →
        ((pagerank nodes edges damping maxIterations tolerance).map Prod.snd).sum = 1) ∧
      (0 < damping → 0 < maxIterations →
        (∃ a ∈ nodeIds nodes, ∀ e ∈ edges, e.source = a → e.target ∉ nodeIds nodes) →
        ((pagerank nodes edges damping maxIterations tolerance).map Prod.snd).sum < 1) := by
  rcases eq_or_ne nodes [] with rfl | hne
  · simp [pagerank, nodeIds]
  have hne' : nodeIds nodes ≠ [] := by simpa [nodeIds] using hne
  obtain ⟨j, -, hj, hmap⟩ :=
    pagerank_eq_iterate nodes edges damping maxIterations tolerance hids hne
  have hs := subDistribution_iterate hids hne' hd₀ hd₁ edges j
  rw [hmap]
  refine ⟨fun p hp ↦ ?_, hs.mass_le, fun _ hout ↦ sum_iterate_eq_one hids hne' hout j,
    fun hd hk ⟨a, ha, hdang⟩ ↦ ?_⟩
  · obtain ⟨b, -, hb⟩ := List.mem_map.mp (hmap ▸ List.mem_map_of_mem Prod.snd hp)
    exact hb ▸ hs.pos b
  · obtain ⟨i, rfl⟩ : ∃ i, j = i + 1 := ⟨j - 1, by omega⟩
    exact sum_iterate_lt_one hids hne' hd₀ hd₁ hd ha hdang i

theorem pagerank_two_cycle_mass :
    ((pagerank [⟨"a"⟩, ⟨"b"⟩] [⟨"a", "b"⟩, ⟨"b", "a"⟩] (17 / 20) 100 (1 / 1000000)).map
      Prod.snd).sum = 1 :=
  (pagerank_pos_and_mass [⟨"a"⟩, ⟨"b"⟩] [⟨"a", "b"⟩, ⟨"b", "a"⟩] (17 / 20) 100 (1 / 1000000)
    (by decide) (by norm_num) (by norm_num)).2.2.1 (by simp) (by decide)

/-- A single edge `a → b`: after three updates the early exit fires, and the mass of the dangling
node `b` has leaked at every update. -/
theorem pagerank_dangling_leaks :
    pagerank [⟨"a"⟩, ⟨"b"⟩] [⟨"a", "b"⟩] (17 / 20) 100 (1 / 1000000)
        = [("a", 3 / 40), ("b", 111 / 800)] ∧
      ((pagerank [⟨"a"⟩, ⟨"b"⟩] [⟨"a", "b"⟩] (17 / 20) 100 (1 / 1000000)).map
        Prod.snd).sum = 171 / 800 := by
  have h : pagerank [⟨"a"⟩, ⟨"b"⟩] [⟨"a", "b"⟩] (17 / 20) 100 (1 / 1000000)
      = [("a", 3 / 40), ("b", 111 / 800)] := by
    set_option maxRecDepth 20000 in with_unfolding_all decide
  refine ⟨h, ?_⟩
  rw [h]
  norm_num

end Plexus
