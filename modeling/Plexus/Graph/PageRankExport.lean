import Plexus.Graph.PageRank
import Mathlib.Algebra.Order.Field.Basic

/-!
# What `pagerank` reads of the export

## Order

A graph export lists its nodes and edges in some order, and nothing in the export schema gives
that order a meaning. In exact arithmetic `pagerank` does not depend on it: reordering the node
records and the edge records permutes the returned items and leaves every node's score as it was
(`pagerank_perm`). The adjacency sees the edges only through the valid ones in the order given,
and every quantity the loop computes from it is a sum over those lists or a count; the result
dict follows the first occurrences of the ids, which reordering permutes. In floating point the
order of the sums, and so the last digits, may still differ.

## Repeated node ids

`n = len(node_ids)` counts node records, not distinct ids, while the returned dict has one item
per distinct id. With `m` distinct ids among `n` records, the uniform start puts mass `m / n` on
the items, and an update adds back only `m * (1 - damping) / n` of base mass, so in exact
arithmetic the returned scores sum to at most `m / n` (`pagerank_sum_le`): a repeated node record
lowers every score, and the scores then sum to strictly less than one even on a graph without
dangling nodes.

## The floor

Every update gives each node the base `(1 - damping) / n` plus what its sources pass on, so after
at least one update no score is below the base, and a node that no edge between node ids points
to scores exactly the base (`pagerank_floor`): for the single edge `a → b` and the defaults,
`a` scores `0.15 / 2 = 0.075`.

## Same sources, same score

An update reads of a node only the sources of the edges into it, counted with multiplicity. So
in exact arithmetic two nodes whose incoming edges between node ids come from the same sources get
the same score, whatever their own outgoing edges, the rest of the graph and the parameters
(`pagerank_eq_of_sources_perm`): a node's score says nothing about where it points. In floating
point the two sums may add the same terms in different orders.
-/

namespace Plexus

variable {α : Type} [DecidableEq α]

/-! ## Order -/

theorem firstOccurrences_perm {l₁ l₂ : List α} (h : l₁.Perm l₂) :
    (firstOccurrences l₁).Perm (firstOccurrences l₂) :=
  (List.perm_ext_iff_of_nodup (nodup_firstOccurrences _) (nodup_firstOccurrences _)).mpr
    fun x ↦ by simp [h.mem_iff]

section Order

variable {ids₁ ids₂ : List α} {edges₁ edges₂ : List (Edge α)} (hids : ids₁.Perm ids₂)
  (hedges : edges₁.Perm edges₂)
include hids hedges

theorem validEdges_perm : (validEdges ids₁ edges₁).Perm (validEdges ids₂ edges₂) := by
  have : validEdges ids₁ edges₂ = validEdges ids₂ edges₂ :=
    List.filter_congr fun e _ ↦ by simp only [hids.mem_iff]
  exact this ▸ hedges.filter _

theorem incoming_perm (x : α) :
    ((buildAdjacency ids₁ edges₁).incoming x).Perm ((buildAdjacency ids₂ edges₂).incoming x) := by
  rw [incoming_buildAdjacency, incoming_buildAdjacency]
  exact ((validEdges_perm hids hedges).filter _).map _

theorem outgoingCount_eq_of_perm :
    (buildAdjacency ids₁ edges₁).outgoingCount = (buildAdjacency ids₂ edges₂).outgoingCount :=
  funext fun x ↦ by
    rw [outgoingCount_buildAdjacency, outgoingCount_buildAdjacency]
    exact ((validEdges_perm hids hedges).filter _).length_eq

/-- One update does not see the order of the nodes and edges. -/
theorem newScores_eq_of_perm (damping : ℚ) :
    newScores ids₁ (buildAdjacency ids₁ edges₁) damping
      = newScores ids₂ (buildAdjacency ids₂ edges₂) damping := by
  funext scores nid
  simp only [newScores, hids.length_eq, rankSum_eq, outgoingCount_eq_of_perm hids hedges,
    ((incoming_perm hids hedges nid).map _).sum_eq]

/-- Nor does the loop. -/
theorem iterateScores_eq_of_perm (damping tolerance : ℚ) :
    ∀ (k : ℕ) (scores : α → ℚ),
      iterateScores ids₁ (buildAdjacency ids₁ edges₁) damping tolerance k scores
        = iterateScores ids₂ (buildAdjacency ids₂ edges₂) damping tolerance k scores
  | 0, _ => rfl
  | k + 1, scores => by
    simp only [iterateScores, newScores_eq_of_perm hids hedges, scoreDiff,
      (hids.map fun nid ↦ _).sum_eq, iterateScores_eq_of_perm damping tolerance k]

end Order

/-- **Order independence.** Reordering the node records and the edge records of the export
permutes the items `pagerank` returns: every node id keeps its score. -/
theorem pagerank_perm {nodes₁ nodes₂ : List (Node α)} {edges₁ edges₂ : List (Edge α)}
    (hnodes : nodes₁.Perm nodes₂) (hedges : edges₁.Perm edges₂) (damping : ℚ)
    (maxIterations : ℕ) (tolerance : ℚ) :
    (pagerank nodes₁ edges₁ damping maxIterations tolerance).Perm
      (pagerank nodes₂ edges₂ damping maxIterations tolerance) := by
  have hids : (nodeIds nodes₁).Perm (nodeIds nodes₂) := hnodes.map _
  unfold pagerank
  dsimp only
  rw [hids.length_eq, iterateScores_eq_of_perm hids hedges]
  split_ifs
  · exact .nil
  · exact (firstOccurrences_perm hids).map _

theorem pagerank_swap_nodes :
    [(⟨"a"⟩ : Node String), ⟨"b"⟩, ⟨"c"⟩].Perm [⟨"c"⟩, ⟨"a"⟩, ⟨"b"⟩] ∧
      [(⟨"a", "b"⟩ : Edge String), ⟨"b", "c"⟩].Perm [⟨"b", "c"⟩, ⟨"a", "b"⟩] ∧
      (pagerank [⟨"a"⟩, ⟨"b"⟩, ⟨"c"⟩] [⟨"a", "b"⟩, ⟨"b", "c"⟩] (17 / 20) 100 (1 / 1000000)).Perm
        (pagerank [⟨"c"⟩, ⟨"a"⟩, ⟨"b"⟩] [⟨"b", "c"⟩, ⟨"a", "b"⟩] (17 / 20) 100 (1 / 1000000)) :=
  ⟨by decide, by decide, pagerank_perm (by decide) (by decide) _ _ _⟩

/-! ## Repeated node ids -/

/-- The adjacency reads the node ids only through membership. -/
theorem buildAdjacency_congr {ids₁ ids₂ : List α} (h : ∀ x, x ∈ ids₁ ↔ x ∈ ids₂)
    (edges : List (Edge α)) : buildAdjacency ids₁ edges = buildAdjacency ids₂ edges := by
  have : addEdge ids₁ = addEdge ids₂ := funext fun adj ↦ funext fun e ↦ by simp only [addEdge, h]
  rw [buildAdjacency, buildAdjacency, this]

section Records

variable {ids : List α} {edges : List (Edge α)} {damping : ℚ}

/-- What every iterate keeps when `n` counts the records: non-negative scores, and mass at most
`m / n` on the `m` distinct ids. -/
structure RecordMass (ids : List α) (scores : α → ℚ) : Prop where
  /-- Every score is non-negative. -/
  nonneg : ∀ a, 0 ≤ scores a
  /-- The distinct ids carry at most `m / n`. -/
  mass_le : ((firstOccurrences ids).map scores).sum
    ≤ (firstOccurrences ids).length / ids.length

/-- One update over the distinct ids: base `m * (1 - damping) / n`, and `damping` times the
mass of the ids with an outgoing edge. -/
theorem sum_newScores_firstOccurrences (scores : α → ℚ) :
    ((firstOccurrences ids).map (newScores ids (buildAdjacency ids edges) damping scores)).sum
      = (firstOccurrences ids).length * ((1 - damping) / ids.length) + damping *
          (((firstOccurrences ids).map scores).sum -
            danglingMass (firstOccurrences ids) (buildAdjacency ids edges) scores) := by
  rw [buildAdjacency_congr (fun x ↦ mem_firstOccurrences.symm) edges]
  unfold newScores
  rw [List.sum_map_add, List.map_const', List.sum_replicate, nsmul_eq_mul, List.sum_map_mul_left,
    sum_rankSum (nodup_firstOccurrences ids)]

variable (hd₀ : 0 ≤ damping) (hd₁ : damping ≤ 1)
include hd₀ hd₁

theorem RecordMass.newScores {scores : α → ℚ} (hs : RecordMass ids scores) :
    RecordMass ids (newScores ids (buildAdjacency ids edges) damping scores) := by
  have hn : (0 : ℚ) ≤ ids.length := Nat.cast_nonneg _
  refine ⟨fun nid ↦ ?_, ?_⟩
  · refine add_nonneg (div_nonneg (by linarith) hn) (mul_nonneg hd₀ (List.sum_nonneg fun _ hx ↦ ?_))
    obtain ⟨src, -, rfl⟩ := List.mem_map.mp hx
    exact div_nonneg (hs.nonneg src) (Nat.cast_nonneg _)
  · have hdm := danglingMass_nonneg (firstOccurrences ids) (buildAdjacency ids edges) hs.nonneg
    have hmass := hs.mass_le
    have hpass := mul_le_mul_of_nonneg_left (by linarith : ((firstOccurrences ids).map scores).sum
      - danglingMass (firstOccurrences ids) (buildAdjacency ids edges) scores
        ≤ (firstOccurrences ids).length / ids.length) hd₀
    rw [sum_newScores_firstOccurrences]
    calc _ ≤ (firstOccurrences ids).length * ((1 - damping) / ids.length) +
          damping * ((firstOccurrences ids).length / ids.length) := by linarith
      _ = (firstOccurrences ids).length / ids.length := by ring

omit hd₀ hd₁ in
theorem recordMass_uniform : RecordMass ids fun _ ↦ 1 / ids.length := by
  refine ⟨fun _ ↦ div_nonneg zero_le_one (Nat.cast_nonneg _), le_of_eq ?_⟩
  rw [List.map_const', List.sum_replicate, nsmul_eq_mul, mul_one_div]

theorem recordMass_iterate (edges : List (Edge α)) (j : ℕ) :
    RecordMass ids ((newScores ids (buildAdjacency ids edges) damping)^[j]
      fun _ ↦ 1 / ids.length) := by
  induction j with
  | zero => exact recordMass_uniform
  | succ j ih =>
    rw [Function.iterate_succ_apply']
    exact ih.newScores hd₀ hd₁

end Records

/-- **Repeated node records.** With `m` distinct node ids among `n` node records and
`0 ≤ damping ≤ 1`, the scores `pagerank` returns, computed in exact arithmetic, sum to at most
`m / n`, for every edge list, tolerance and iteration limit; so a repeated node id makes them sum
to less than one. -/
theorem pagerank_sum_le (nodes : List (Node α)) (edges : List (Edge α)) (damping : ℚ)
    (maxIterations : ℕ) (tolerance : ℚ) (hd₀ : 0 ≤ damping) (hd₁ : damping ≤ 1) :
    ((pagerank nodes edges damping maxIterations tolerance).map Prod.snd).sum
        ≤ (firstOccurrences (nodeIds nodes)).length / (nodeIds nodes).length ∧
      (¬(nodeIds nodes).Nodup →
        ((pagerank nodes edges damping maxIterations tolerance).map Prod.snd).sum < 1) := by
  have hsum : ((pagerank nodes edges damping maxIterations tolerance).map Prod.snd).sum
      ≤ (firstOccurrences (nodeIds nodes)).length / (nodeIds nodes).length := by
    unfold pagerank
    split_ifs with h0
    · simp [h0]
    · obtain ⟨j, -, -, h⟩ := iterateScores_eq_iterate (nodeIds nodes)
        (buildAdjacency (nodeIds nodes) edges) damping tolerance maxIterations
        fun _ ↦ 1 / (nodeIds nodes).length
      simpa only [List.map_map, Function.comp_def, h] using
        (recordMass_iterate hd₀ hd₁ edges j).mass_le
  refine ⟨hsum, fun hdup ↦ lt_of_le_of_lt hsum ?_⟩
  have hlt := length_firstOccurrences_lt hdup
  exact (div_lt_one (by exact_mod_cast (Nat.zero_le _).trans_lt hlt)).mpr (by exact_mod_cast hlt)

theorem pagerank_repeated_node :
    (0 : ℚ) ≤ 17 / 20 ∧ (17 / 20 : ℚ) ≤ 1 ∧
      ((pagerank [⟨"a"⟩, ⟨"a"⟩, ⟨"b"⟩] [⟨"a", "b"⟩, ⟨"b", "a"⟩] (17 / 20) 100 (1 / 1000000)).map
          Prod.snd).sum ≤ (firstOccurrences (nodeIds [⟨"a"⟩, ⟨"a"⟩, ⟨"b"⟩])).length
            / (nodeIds [(⟨"a"⟩ : Node String), ⟨"a"⟩, ⟨"b"⟩]).length ∧
        (¬(nodeIds [(⟨"a"⟩ : Node String), ⟨"a"⟩, ⟨"b"⟩]).Nodup →
          ((pagerank [⟨"a"⟩, ⟨"a"⟩, ⟨"b"⟩] [⟨"a", "b"⟩, ⟨"b", "a"⟩] (17 / 20) 100
            (1 / 1000000)).map Prod.snd).sum < 1) :=
  ⟨by norm_num, by norm_num, pagerank_sum_le _ _ _ _ _ (by norm_num) (by norm_num)⟩

/-! ## The floor -/

omit [DecidableEq α] in
/-- An update gives every node at least the base, from non-negative scores. -/
theorem base_le_newScores (ids : List α) (adj : Adjacency α) {damping : ℚ} (hd₀ : 0 ≤ damping)
    {scores : α → ℚ} (hs : ∀ a, 0 ≤ scores a) (nid : α) :
    (1 - damping) / ids.length ≤ newScores ids adj damping scores nid :=
  le_add_of_nonneg_right (mul_nonneg hd₀ (List.sum_nonneg fun _ hx ↦ by
    obtain ⟨src, -, rfl⟩ := List.mem_map.mp hx
    exact div_nonneg (hs src) (Nat.cast_nonneg _)))

omit [DecidableEq α] in
/-- A node without sources gets the base alone. -/
theorem newScores_of_incoming_eq_nil (ids : List α) {adj : Adjacency α} (damping : ℚ)
    (scores : α → ℚ) {nid : α} (h : adj.incoming nid = []) :
    newScores ids adj damping scores nid = (1 - damping) / ids.length := by
  simp [newScores, rankSum, h]

omit [DecidableEq α] in
theorem iterate_newScores_nonneg (ids : List α) (adj : Adjacency α) {damping : ℚ}
    (hd₀ : 0 ≤ damping) (hd₁ : damping ≤ 1) (j : ℕ) (a : α) :
    0 ≤ (newScores ids adj damping)^[j] (fun _ ↦ 1 / ids.length) a := by
  induction j generalizing a with
  | zero => exact div_nonneg zero_le_one (Nat.cast_nonneg _)
  | succ j ih =>
    rw [Function.iterate_succ_apply']
    exact (div_nonneg (sub_nonneg.mpr hd₁) (Nat.cast_nonneg _)).trans
      (base_le_newScores ids adj hd₀ ih a)

/-- **The floor.** With `0 ≤ damping ≤ 1` and at least one iteration, every score `pagerank`
returns is at least the base `(1 - damping) / n`, and a node that no edge between node ids points
to scores exactly the base, whatever the tolerance. -/
theorem pagerank_floor (nodes : List (Node α)) (edges : List (Edge α)) (damping : ℚ)
    (maxIterations : ℕ) (tolerance : ℚ) (hd₀ : 0 ≤ damping) (hd₁ : damping ≤ 1)
    (hk : 0 < maxIterations) :
    ∀ p ∈ pagerank nodes edges damping maxIterations tolerance,
      (1 - damping) / (nodeIds nodes).length ≤ p.2 ∧
        ((∀ e ∈ validEdges (nodeIds nodes) edges, e.target ≠ p.1) →
          p.2 = (1 - damping) / (nodeIds nodes).length) := by
  intro p hp
  unfold pagerank at hp
  split_ifs at hp
  · cases hp
  obtain ⟨j, -, hj, h⟩ := iterateScores_eq_iterate (nodeIds nodes)
    (buildAdjacency (nodeIds nodes) edges) damping tolerance maxIterations
    fun _ ↦ 1 / (nodeIds nodes).length
  obtain ⟨i, rfl⟩ : ∃ i, j = i + 1 := ⟨j - 1, by omega⟩
  obtain ⟨nid, -, rfl⟩ := List.mem_map.mp hp
  simp only [h, Function.iterate_succ_apply']
  refine ⟨base_le_newScores _ _ hd₀ (iterate_newScores_nonneg _ _ hd₀ hd₁ i) nid,
    fun hsrc ↦ newScores_of_incoming_eq_nil _ _ _ ?_⟩
  rw [incoming_buildAdjacency, List.map_eq_nil_iff, List.filter_eq_nil_iff]
  exact fun e he ↦ by simpa using hsrc e he

theorem pagerank_source_floor :
    (0 : ℚ) ≤ 17 / 20 ∧ (17 / 20 : ℚ) ≤ 1 ∧ 0 < 100 ∧
      ∀ p ∈ pagerank [⟨"a"⟩, ⟨"b"⟩] [⟨"a", "b"⟩] (17 / 20) 100 (1 / 1000000),
        (1 - 17 / 20) / (nodeIds [(⟨"a"⟩ : Node String), ⟨"b"⟩]).length ≤ p.2 ∧
          ((∀ e ∈ validEdges (nodeIds [(⟨"a"⟩ : Node String), ⟨"b"⟩]) [⟨"a", "b"⟩],
            e.target ≠ p.1) →
            p.2 = (1 - 17 / 20) / (nodeIds [(⟨"a"⟩ : Node String), ⟨"b"⟩]).length) :=
  ⟨by norm_num, by norm_num, by norm_num, pagerank_floor _ _ _ _ _ (by norm_num) (by norm_num)
    (by norm_num)⟩

/-! ## Same sources, same score -/

omit [DecidableEq α] in
/-- An update scores two nodes with the same sources alike. -/
theorem newScores_eq_of_incoming_perm (ids : List α) {adj : Adjacency α} (damping : ℚ)
    (scores : α → ℚ) {a b : α} (h : (adj.incoming a).Perm (adj.incoming b)) :
    newScores ids adj damping scores a = newScores ids adj damping scores b := by
  simp only [newScores, rankSum_eq, (h.map _).sum_eq]

omit [DecidableEq α] in
theorem iterate_newScores_eq_of_incoming_perm (ids : List α) {adj : Adjacency α} (damping : ℚ)
    {a b : α} (h : (adj.incoming a).Perm (adj.incoming b)) :
    ∀ j, (newScores ids adj damping)^[j] (fun _ ↦ 1 / ids.length) a
      = (newScores ids adj damping)^[j] (fun _ ↦ 1 / ids.length) b
  | 0 => rfl
  | j + 1 => by
    simp only [Function.iterate_succ_apply']
    exact newScores_eq_of_incoming_perm ids damping _ h

/-- **Same sources, same score.** Two nodes into which the edges between node ids come from the
same sources, counted with multiplicity, get the same score from `pagerank` computed in exact
arithmetic, for every damping, iteration limit and tolerance. -/
theorem pagerank_eq_of_sources_perm (nodes : List (Node α)) (edges : List (Edge α))
    (damping : ℚ) (maxIterations : ℕ) (tolerance : ℚ) {a b : α}
    (h : (((validEdges (nodeIds nodes) edges).filter (·.target = a)).map Edge.source).Perm
      (((validEdges (nodeIds nodes) edges).filter (·.target = b)).map Edge.source)) :
    ∀ x y, (a, x) ∈ pagerank nodes edges damping maxIterations tolerance →
      (b, y) ∈ pagerank nodes edges damping maxIterations tolerance → x = y := by
  intro x y ha hb
  unfold pagerank at ha hb
  split_ifs at ha hb
  · cases ha
  obtain ⟨j, -, -, hj⟩ := iterateScores_eq_iterate (nodeIds nodes)
    (buildAdjacency (nodeIds nodes) edges) damping tolerance maxIterations
    fun _ ↦ 1 / (nodeIds nodes).length
  obtain ⟨a', -, ha⟩ := List.mem_map.mp ha
  obtain ⟨b', -, hb⟩ := List.mem_map.mp hb
  obtain ⟨rfl, rfl⟩ := Prod.mk.inj ha
  obtain ⟨rfl, rfl⟩ := Prod.mk.inj hb
  rw [hj]
  exact iterate_newScores_eq_of_incoming_perm _ _
    (by rwa [incoming_buildAdjacency, incoming_buildAdjacency]) j

/-- The two targets of `a` are scored alike, whatever points at `a`. -/
theorem pagerank_common_source :
    (((validEdges (nodeIds [(⟨"a"⟩ : Node String), ⟨"b"⟩, ⟨"c"⟩, ⟨"d"⟩])
        [⟨"a", "c"⟩, ⟨"a", "d"⟩, ⟨"b", "a"⟩, ⟨"c", "b"⟩]).filter (·.target = "c")).map
        Edge.source).Perm
      (((validEdges (nodeIds [(⟨"a"⟩ : Node String), ⟨"b"⟩, ⟨"c"⟩, ⟨"d"⟩])
        [⟨"a", "c"⟩, ⟨"a", "d"⟩, ⟨"b", "a"⟩, ⟨"c", "b"⟩]).filter (·.target = "d")).map
        Edge.source) ∧
      ∀ x y, ("c", x) ∈ pagerank [⟨"a"⟩, ⟨"b"⟩, ⟨"c"⟩, ⟨"d"⟩]
          [⟨"a", "c"⟩, ⟨"a", "d"⟩, ⟨"b", "a"⟩, ⟨"c", "b"⟩] (17 / 20) 100 (1 / 1000000) →
        ("d", y) ∈ pagerank [⟨"a"⟩, ⟨"b"⟩, ⟨"c"⟩, ⟨"d"⟩]
          [⟨"a", "c"⟩, ⟨"a", "d"⟩, ⟨"b", "a"⟩, ⟨"c", "b"⟩] (17 / 20) 100 (1 / 1000000) →
        x = y :=
  have h : (((validEdges (nodeIds [(⟨"a"⟩ : Node String), ⟨"b"⟩, ⟨"c"⟩, ⟨"d"⟩])
        [⟨"a", "c"⟩, ⟨"a", "d"⟩, ⟨"b", "a"⟩, ⟨"c", "b"⟩]).filter (·.target = "c")).map
        Edge.source).Perm
      (((validEdges (nodeIds [(⟨"a"⟩ : Node String), ⟨"b"⟩, ⟨"c"⟩, ⟨"d"⟩])
        [⟨"a", "c"⟩, ⟨"a", "d"⟩, ⟨"b", "a"⟩, ⟨"c", "b"⟩]).filter (·.target = "d")).map
        Edge.source) := by decide
  ⟨h, pagerank_eq_of_sources_perm _ _ _ _ _ h⟩

end Plexus
