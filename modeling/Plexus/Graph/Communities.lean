import Plexus.Graph.Export
import Mathlib.Logic.Relation
import Mathlib.Data.List.Sort

/-!
# Label propagation

`run_communities.py` groups the nodes of a graph export by asynchronous label propagation. Each
node starts with its own index in `node_ids` as label. A sweep visits the nodes in an order drawn
by `random.shuffle`, and a node with neighbors takes one of the labels most frequent among them,
drawn by `random.choice`. The sweeps stop after `max_iterations`, or after a sweep that changed
nothing, and the labels are then renumbered `0, 1, …` in increasing order.

## Randomness

The script seeds the `random` module and draws from it. `RandomSource` leaves the generator
open: a shuffle may return any permutation of its list, and a draw below `n > 0` any number below
`n`. Every statement here holds for every such generator and every seed, the seeded Mersenne
Twister run among them.

## The invariant

A node holding label `i` is connected to the node `node_ids[i]` in the undirected graph of the
valid edges (`LabelInv`). A node only ever takes a label one of its neighbors holds, so a single
update keeps this (`LabelInv.updateNode`), and sweeps and the outer loop keep it by induction.
Two nodes that end in one community hold one label, so both are connected to the same node.
-/

namespace Plexus

variable {α σ : Type} [DecidableEq α]

/-! ## The `random` module -/

/-- The `random` module as the script uses it, over a generator state `σ`. Only what the script
relies on is assumed: a shuffle permutes its list, and a draw below `n > 0` is below `n`. -/
structure RandomSource (σ α : Type) where
  /-- `random.seed(seed)`: the state it sets. -/
  seed : ℕ → σ
  /-- `random.shuffle(x)`: the shuffled list and the next state. -/
  shuffle : σ → List α → List α × σ
  /-- `random._randbelow(n)`, the draw behind `random.choice`, and the next state. -/
  randbelow : σ → ℕ → ℕ × σ
  /-- A shuffle returns a permutation of its list. -/
  shuffle_perm : ∀ s l, (shuffle s l).1.Perm l
  /-- A draw below a positive bound is below it. -/
  randbelow_lt : ∀ s n, 0 < n → (randbelow s n).1 < n

/-- `random.choice(seq)`: `seq[_randbelow(len(seq))]`. -/
def RandomSource.choice (rnd : RandomSource σ α) (s : σ) (seq : List ℕ) : ℕ × σ :=
  (seq[(rnd.randbelow s seq.length).1]?.getD 0, (rnd.randbelow s seq.length).2)

omit [DecidableEq α] in
theorem RandomSource.choice_mem (rnd : RandomSource σ α) (s : σ) {seq : List ℕ}
    (h : seq ≠ []) : (rnd.choice s seq).1 ∈ seq := by
  have hi := rnd.randbelow_lt s seq.length (List.length_pos.mpr h)
  simp [RandomSource.choice, List.getElem?_eq_getElem hi, List.getElem_mem]

/-! ## Neighbors and paths -/

/-- One pass of the edge loop: an edge between two node ids appends `tgt` to `neighbors[src]`
and then `src` to `neighbors[tgt]`; any other edge is skipped. -/
def addNeighbors (ids : List α) (nbrs : α → List α) (e : Edge α) : α → List α :=
  if e.source ∈ ids ∧ e.target ∈ ids then fun x ↦
    (if x = e.source then nbrs x ++ [e.target] else nbrs x) ++
      (if x = e.target then [e.source] else [])
  else nbrs

/-- The edge loop, from `neighbors = {nid: [] ...}`. -/
def buildNeighbors (ids : List α) (edges : List (Edge α)) : α → List α :=
  edges.foldl (addNeighbors ids) fun _ ↦ []

/-- Two ids joined by a valid edge, in either direction. -/
def Linked (ids : List α) (edges : List (Edge α)) (x y : α) : Prop :=
  ∃ e ∈ validEdges ids edges, (e.source = x ∧ e.target = y) ∨ (e.source = y ∧ e.target = x)

/-- Joined by a path in the undirected graph of the valid edges. -/
def Connected (ids : List α) (edges : List (Edge α)) : α → α → Prop :=
  Relation.ReflTransGen (Linked ids edges)

section Paths

variable {ids : List α} {edges : List (Edge α)} {x y : α}

theorem Linked.symm (h : Linked ids edges x y) : Linked ids edges y x := by
  obtain ⟨e, he, h | h⟩ := h
  exacts [⟨e, he, .inr h⟩, ⟨e, he, .inl h⟩]

theorem Linked.mem_right (h : Linked ids edges x y) : y ∈ ids := by
  obtain ⟨e, he, ⟨-, rfl⟩ | ⟨rfl, -⟩⟩ := h
  exacts [(mem_validEdges.mp he).2.2, (mem_validEdges.mp he).2.1]

theorem Linked.cons (e : Edge α) (h : Linked ids edges x y) : Linked ids (e :: edges) x y := by
  obtain ⟨e', he', h⟩ := h
  exact ⟨e', by simp_all, h⟩

theorem Connected.symm (h : Connected ids edges x y) : Connected ids edges y x :=
  Relation.ReflTransGen.symmetric (fun _ _ ↦ Linked.symm) h

theorem mem_addNeighbors {nbrs : α → List α} {e : Edge α} (h : y ∈ addNeighbors ids nbrs e x) :
    y ∈ nbrs x ∨ Linked ids [e] x y := by
  by_cases hv : e.source ∈ ids ∧ e.target ∈ ids
  · have he : e ∈ validEdges ids [e] := by simp [hv]
    rw [addNeighbors, if_pos hv] at h
    split_ifs at h with h₁ h₂ h₂ <;> simp only [List.mem_append, List.mem_singleton,
      List.not_mem_nil, or_false] at h
    · rcases h with (h | rfl) | rfl
      exacts [.inl h, .inr ⟨e, he, .inl ⟨h₁.symm, rfl⟩⟩, .inr ⟨e, he, .inr ⟨rfl, h₂.symm⟩⟩]
    · rcases h with h | rfl
      exacts [.inl h, .inr ⟨e, he, .inl ⟨h₁.symm, rfl⟩⟩]
    · rcases h with h | rfl
      exacts [.inl h, .inr ⟨e, he, .inr ⟨rfl, h₂.symm⟩⟩]
    · exact .inl h
  · rw [addNeighbors, if_neg hv] at h
    exact .inl h

theorem mem_foldl_addNeighbors : ∀ (es : List (Edge α)) (nbrs : α → List α),
    y ∈ es.foldl (addNeighbors ids) nbrs x → y ∈ nbrs x ∨ Linked ids es x y
  | [], _, h => .inl h
  | e :: es, nbrs, h => by
    rcases mem_foldl_addNeighbors es _ h with h | h
    · rcases mem_addNeighbors h with h | ⟨e', he', hlink⟩
      · exact .inl h
      · obtain ⟨rfl, hs, ht⟩ : e' = e ∧ e'.source ∈ ids ∧ e'.target ∈ ids := by simpa using he'
        exact .inr ⟨e', by simp [hs, ht], hlink⟩
    · exact .inr (h.cons e)

/-- Every neighbor is linked by a valid edge. -/
theorem linked_of_mem_buildNeighbors (h : y ∈ buildNeighbors ids edges x) :
    Linked ids edges x y :=
  (mem_foldl_addNeighbors edges _ h).resolve_left (List.not_mem_nil y)

end Paths

/-! ## One update -/

/-- `label_counts`: `label_counts[lbl] = label_counts.get(lbl, 0) + 1` for each neighbor. -/
def labelCounts (labels : α → ℕ) (nbrs : List α) : List (ℕ × ℕ) :=
  nbrs.foldl (fun counts nbr ↦ dictAdd counts (labels nbr) 1) []

/-- `max(label_counts.values())`. -/
def maxCount (counts : List (ℕ × ℕ)) : ℕ := ((counts.map Prod.snd).max?).getD 0

/-- `[l for l, c in label_counts.items() if c == max_count]`. -/
def candidates (counts : List (ℕ × ℕ)) : List ℕ :=
  (counts.filter fun lc ↦ lc.2 = maxCount counts).map Prod.fst

/-- The state of a sweep: the labels, the `changed` flag and the generator state. -/
structure Sweep (α σ : Type) where
  /-- The `labels` dict, as a function of the node id. -/
  labels : α → ℕ
  /-- Whether some label changed during the sweep. -/
  changed : Bool
  /-- The state of the generator. -/
  rng : σ

/-- The body of `for nid in order`: a node without neighbors is skipped; any other takes a label
drawn from the most frequent labels of its neighbors. -/
def updateNode (rnd : RandomSource σ α) (nbrs : α → List α) (st : Sweep α σ) (nid : α) :
    Sweep α σ :=
  if nbrs nid = [] then st
  else
    let pick := rnd.choice st.rng (candidates (labelCounts st.labels (nbrs nid)))
    if st.labels nid ≠ pick.1 then
      ⟨fun x ↦ if x = nid then pick.1 else st.labels x, true, pick.2⟩
    else ⟨st.labels, st.changed, pick.2⟩

omit [DecidableEq α] in
theorem mem_foldl_dictAdd (labels : α → ℕ) : ∀ (nbrs : List α) (counts : List (ℕ × ℕ)) {l : ℕ},
    l ∈ dictKeys (nbrs.foldl (fun counts nbr ↦ dictAdd counts (labels nbr) 1) counts) →
      l ∈ dictKeys counts ∨ ∃ nbr ∈ nbrs, labels nbr = l
  | [], _, _, h => .inl h
  | nbr :: nbrs, counts, l, h => by
    rcases mem_foldl_dictAdd labels nbrs _ h with h | ⟨n, hn, rfl⟩
    · rcases mem_dictKeys_dictAdd.mp h with h | rfl
      · exact .inl h
      · exact .inr ⟨nbr, List.mem_cons_self _ _, rfl⟩
    · exact .inr ⟨n, List.mem_cons_of_mem _ hn, rfl⟩

omit [DecidableEq α] in
theorem labelCounts_ne_nil (labels : α → ℕ) {nbrs : List α} (h : nbrs ≠ []) :
    labelCounts labels nbrs ≠ [] := by
  obtain ⟨nbr, nbrs, rfl⟩ := List.exists_cons_of_ne_nil h
  have : ∀ (l : List α) (counts : List (ℕ × ℕ)), counts ≠ [] →
      l.foldl (fun counts nbr ↦ dictAdd counts (labels nbr) 1) counts ≠ [] := by
    intro l
    induction l with
    | nil => exact fun _ h ↦ h
    | cons _ _ ih => exact fun _ _ ↦ ih _ (dictAdd_ne_nil _ _ _)
  exact this nbrs _ (dictAdd_ne_nil _ _ _)

/-- Some label reaches the maximal count. -/
theorem candidates_ne_nil {counts : List (ℕ × ℕ)} (h : counts ≠ []) : candidates counts ≠ [] := by
  obtain ⟨m, hm⟩ : ∃ m, (counts.map Prod.snd).max? = some m :=
    Option.ne_none_iff_exists'.mp (by simpa using h)
  obtain ⟨lc, hlc, rfl⟩ := List.mem_map.mp (List.max?_mem max_choice hm)
  have : lc ∈ counts.filter fun lc ↦ lc.2 = maxCount counts := by
    simp [hlc, maxCount, hm]
  simpa [candidates] using List.ne_nil_of_mem this

/-- **One update.** The labels either stay as they are, or the node takes a label one of its
neighbors holds. -/
theorem updateNode_labels (rnd : RandomSource σ α) (nbrs : α → List α) (st : Sweep α σ)
    (nid : α) : (updateNode rnd nbrs st nid).labels = st.labels ∨
      ∃ nbr ∈ nbrs nid, (updateNode rnd nbrs st nid).labels
        = fun x ↦ if x = nid then st.labels nbr else st.labels x := by
  unfold updateNode
  by_cases hnil : nbrs nid = []
  · exact .inl (by rw [if_pos hnil])
  rw [if_neg hnil]
  dsimp only
  obtain ⟨lc, hlc, hpick⟩ := List.mem_map.mp (rnd.choice_mem st.rng
    (candidates_ne_nil (labelCounts_ne_nil st.labels hnil)))
  rcases mem_foldl_dictAdd st.labels (nbrs nid) [] (l := lc.1)
    (List.mem_map_of_mem _ (List.mem_filter.mp hlc).1) with h | ⟨nbr, hnbr, hl⟩
  · simp [dictKeys] at h
  split_ifs
  · exact .inr ⟨nbr, hnbr, by rw [hl, hpick]; rfl⟩
  · exact .inl rfl

/-! ## The loops -/

/-- One sweep: `order = list(node_ids)`, `random.shuffle(order)`, then the inner loop. -/
def sweep (rnd : RandomSource σ α) (ids : List α) (nbrs : α → List α) (labels : α → ℕ)
    (rng : σ) : Sweep α σ :=
  (rnd.shuffle rng ids).1.foldl (updateNode rnd nbrs) ⟨labels, false, (rnd.shuffle rng ids).2⟩

/-- The outer loop with `k` sweeps left: it stops after a sweep that changed nothing. -/
def propagate (rnd : RandomSource σ α) (ids : List α) (nbrs : α → List α) :
    ℕ → (α → ℕ) → σ → α → ℕ
  | 0, labels, _ => labels
  | k + 1, labels, rng =>
    if (sweep rnd ids nbrs labels rng).changed then
      propagate rnd ids nbrs k (sweep rnd ids nbrs labels rng).labels
        (sweep rnd ids nbrs labels rng).rng
    else (sweep rnd ids nbrs labels rng).labels

/-- `labels = {nid: i for i, nid in enumerate(node_ids)}`: a later occurrence of an id
overwrites an earlier one. -/
def initLabels (ids : List α) : α → ℕ :=
  ids.enum.foldl (fun labels p ↦ fun x ↦ if x = p.2 then p.1 else labels x) fun _ ↦ 0

/-- `unique_labels = sorted(set(labels.values()))`, the values read over the keys of `labels`. -/
def uniqueLabels (ids : List α) (labels : α → ℕ) : List ℕ :=
  (firstOccurrences ((firstOccurrences ids).map labels)).insertionSort (· ≤ ·)

/-- `label_propagation(nodes, edges, max_iterations, seed)`: the community of each node id, in
the order of the keys of `labels`. Since `unique_labels` has no repeats, `remap[lbl]` is the
position of `lbl` in it. -/
def labelPropagation (rnd : RandomSource σ α) (nodes : List (Node α)) (edges : List (Edge α))
    (maxIterations seed : ℕ) : List (α × ℕ) :=
  if (nodeIds nodes).length = 0 then []
  else
    let labels := propagate rnd (nodeIds nodes) (buildNeighbors (nodeIds nodes) edges)
      maxIterations (initLabels (nodeIds nodes)) (rnd.seed seed)
    (firstOccurrences (nodeIds nodes)).map fun nid ↦
      (nid, (uniqueLabels (nodeIds nodes) labels).indexOf (labels nid))

/-! ## The invariant -/

/-- **The invariant.** Every node id is connected to the node whose initial index is its
label. -/
def LabelInv (ids : List α) (edges : List (Edge α)) (labels : α → ℕ) : Prop :=
  ∀ x ∈ ids, ∃ y, ids[labels x]? = some y ∧ Connected ids edges x y

theorem foldl_initStep_of_not_mem : ∀ (l : List (ℕ × α)) (f : α → ℕ) {x : α},
    x ∉ l.map Prod.snd →
      l.foldl (fun labels p ↦ fun y ↦ if y = p.2 then p.1 else labels y) f x = f x
  | [], _, _, _ => rfl
  | p :: l, f, x, hx => by
    simp only [List.map_cons, List.mem_cons, not_or] at hx
    rw [List.foldl_cons, foldl_initStep_of_not_mem l _ hx.2, if_neg hx.1]

theorem foldl_initStep_mem : ∀ (l : List (ℕ × α)) (f : α → ℕ) {x : α},
    x ∈ l.map Prod.snd →
      (l.foldl (fun labels p ↦ fun y ↦ if y = p.2 then p.1 else labels y) f x, x) ∈ l
  | [], _, _, hx => by simp at hx
  | p :: l, f, x, hx => by
    rw [List.foldl_cons]
    by_cases hl : x ∈ l.map Prod.snd
    · exact List.mem_cons_of_mem _ (foldl_initStep_mem l _ hl)
    · have hp : x = p.2 := by simpa [hl] using hx
      rw [foldl_initStep_of_not_mem l _ hl, if_pos hp, hp]
      exact List.mem_cons_self _ _

/-- Initially every node holds an index of itself. -/
theorem labelInv_initLabels (ids : List α) (edges : List (Edge α)) :
    LabelInv ids edges (initLabels ids) := fun x hx ↦
  ⟨x, List.mem_enum_iff_getElem?.mp
    (foldl_initStep_mem ids.enum _ (by rwa [List.enum_map_snd])), .refl⟩

section Run

variable {ids : List α} {edges : List (Edge α)} (rnd : RandomSource σ α)

/-- **The invariant, one update.** -/
theorem LabelInv.updateNode {st : Sweep α σ} (h : LabelInv ids edges st.labels) (nid : α) :
    LabelInv ids edges (updateNode rnd (buildNeighbors ids edges) st nid).labels := by
  rcases updateNode_labels rnd _ st nid with hl | ⟨nbr, hnbr, hl⟩
  · rwa [hl]
  · rw [hl]
    intro x hx
    by_cases hxn : x = nid
    · subst hxn
      have hlink := linked_of_mem_buildNeighbors hnbr
      obtain ⟨y, hy, hc⟩ := h nbr hlink.mem_right
      exact ⟨y, by simpa using hy, .head hlink hc⟩
    · simpa [hxn] using h x hx

/-- **The invariant, one sweep.** -/
theorem LabelInv.sweep {labels : α → ℕ} (h : LabelInv ids edges labels) (rng : σ) :
    LabelInv ids edges (sweep rnd ids (buildNeighbors ids edges) labels rng).labels := by
  have : ∀ (order : List α) (st : Sweep α σ), LabelInv ids edges st.labels →
      LabelInv ids edges
        (order.foldl (Plexus.updateNode rnd (buildNeighbors ids edges)) st).labels := by
    intro order
    induction order with
    | nil => exact fun _ h ↦ h
    | cons nid order ih => exact fun st h ↦ ih _ (h.updateNode rnd nid)
  exact this _ _ h

/-- **The invariant, whole run.** -/
theorem LabelInv.propagate : ∀ (k : ℕ) {labels : α → ℕ} (rng : σ), LabelInv ids edges labels →
    LabelInv ids edges (propagate rnd ids (buildNeighbors ids edges) k labels rng)
  | 0, _, _, h => h
  | k + 1, _, rng, h => by
    rw [Plexus.propagate]
    split_ifs
    · exact LabelInv.propagate k _ (h.sweep rnd rng)
    · exact h.sweep rnd rng

end Run

/-! ## Renumbering -/

theorem mem_uniqueLabels {ids : List α} {labels : α → ℕ} {c : ℕ} :
    c ∈ uniqueLabels ids labels ↔ ∃ x ∈ ids, labels x = c := by
  simp [uniqueLabels, (List.perm_insertionSort _ _).mem_iff]

theorem nodup_uniqueLabels (ids : List α) (labels : α → ℕ) : (uniqueLabels ids labels).Nodup :=
  (List.perm_insertionSort _ _).nodup_iff.mpr (nodup_firstOccurrences _)

/-- The renumbered labels are exactly the positions `0, …, len(unique_labels) - 1`. -/
theorem exists_indexOf_uniqueLabels_iff {ids : List α} {labels : α → ℕ} {c : ℕ} :
    (∃ x ∈ ids, (uniqueLabels ids labels).indexOf (labels x) = c) ↔
      c < (uniqueLabels ids labels).length := by
  constructor
  · rintro ⟨x, hx, rfl⟩
    exact List.indexOf_lt_length.mpr (mem_uniqueLabels.mpr ⟨x, hx, rfl⟩)
  · intro hc
    obtain ⟨x, hx, hxc⟩ := mem_uniqueLabels.mp (List.getElem_mem hc)
    exact ⟨x, hx, by rw [hxc, List.indexOf_getElem (nodup_uniqueLabels ids labels)]⟩

/-- Renumbering keeps labels apart. -/
theorem labels_eq_of_indexOf_eq {ids : List α} {labels : α → ℕ} {x y : α} (hx : x ∈ ids)
    (hy : y ∈ ids) (h : (uniqueLabels ids labels).indexOf (labels x)
      = (uniqueLabels ids labels).indexOf (labels y)) : labels x = labels y :=
  (List.indexOf_inj (mem_uniqueLabels.mpr ⟨x, hx, rfl⟩) (mem_uniqueLabels.mpr ⟨y, hy, rfl⟩)).mp h

/-- Under the invariant, two nodes with one label are connected through the node it names. -/
theorem LabelInv.connected {ids : List α} {edges : List (Edge α)} {labels : α → ℕ}
    (h : LabelInv ids edges labels) {x y : α} (hx : x ∈ ids) (hy : y ∈ ids)
    (hl : labels x = labels y) : Connected ids edges x y := by
  obtain ⟨z, hz, hxz⟩ := h x hx
  obtain ⟨z', hz', hyz⟩ := h y hy
  obtain rfl : z = z' := Option.some.inj (hz.symm.trans (hl ▸ hz'))
  exact hxz.trans hyz.symm

/-! ## Communities -/

/-- **Communities.** For every graph, every generator and seed and every iteration limit, the
keys are the distinct node ids, the communities are exactly `0, …, k - 1` for some `k`, and two
nodes in one community are joined by a path of valid edges. -/
theorem labelPropagation_communities (rnd : RandomSource σ α) (nodes : List (Node α))
    (edges : List (Edge α)) (maxIterations seed : ℕ) :
    (labelPropagation rnd nodes edges maxIterations seed).map Prod.fst
        = firstOccurrences (nodeIds nodes) ∧
      (∃ k, ∀ c, c ∈ (labelPropagation rnd nodes edges maxIterations seed).map Prod.snd ↔ c < k) ∧
      ∀ p ∈ labelPropagation rnd nodes edges maxIterations seed,
        ∀ q ∈ labelPropagation rnd nodes edges maxIterations seed,
          p.2 = q.2 → Connected (nodeIds nodes) edges p.1 q.1 := by
  unfold labelPropagation
  split_ifs with h0
  · exact ⟨by simp [List.length_eq_zero.mp h0, firstOccurrences], ⟨0, by simp⟩, by simp⟩
  set ids := nodeIds nodes
  set labels := propagate rnd ids (buildNeighbors ids edges) maxIterations (initLabels ids)
    (rnd.seed seed)
  have hinv : LabelInv ids edges labels :=
    LabelInv.propagate rnd _ _ (labelInv_initLabels ids edges)
  refine ⟨by simp [Function.comp_def], ⟨(uniqueLabels ids labels).length, fun c ↦ ?_⟩, ?_⟩
  · simpa [Function.comp_def] using exists_indexOf_uniqueLabels_iff
  · simp only [List.mem_map, mem_firstOccurrences]
    rintro _ ⟨x, hx, rfl⟩ _ ⟨y, hy, rfl⟩ hxy
    exact hinv.connected hx hy (labels_eq_of_indexOf_eq hx hy hxy)

end Plexus
