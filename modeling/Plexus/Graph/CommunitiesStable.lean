import Plexus.Graph.Communities

/-!
# When label propagation stops early

`label_propagation` leaves its outer loop by `break` after a sweep in which no label changed:
"Converges when no labels change". Such a sweep visited every node, and a node with neighbors
kept its label only because the label drawn from the most frequent labels among its neighbors
was the one it held. So after a `break` the labels are a consensus: every node with neighbors
holds a label that no other label outnumbers among its neighbors (`Stable`,
`propagate_stable_of_stops`). Renumbering keeps labels apart, so every node's community is one
that no other community outnumbers among its neighbors (`labelPropagation_plurality_of_stops`).

A run that uses up `max_iterations` gives no such guarantee. Nor is a stable labelling a fixed
point of the sweeps: where two labels tie, `random.choice` may draw the one the node does not
hold, and the sweep changes it.

A node on no edge between node ids has no neighbor, so it never takes another label; and by the
invariant of the run a node holding its label is connected to it, so it is a community of its
own (`labelPropagation_isolated`).
-/

namespace Plexus

variable {α σ : Type} [DecidableEq α]

/-! ## Counting labels -/

omit [DecidableEq α] in
theorem dictGet_foldl_labelCounts (labels : α → ℕ) (l : ℕ) :
    ∀ (nbrs : List α) (counts : List (ℕ × ℕ)),
      dictGet (nbrs.foldl (fun counts nbr ↦ dictAdd counts (labels nbr) 1) counts) l 0
        = dictGet counts l 0 + (nbrs.filter fun y ↦ labels y = l).length
  | [], _ => rfl
  | nbr :: nbrs, counts => by
    rw [List.foldl_cons, dictGet_foldl_labelCounts labels l nbrs, dictGet_dictAdd,
      List.filter_cons]
    by_cases h : labels nbr = l
    · simp only [h, decide_True, if_true, List.length_cons]
      omega
    · simp [h]

omit [DecidableEq α] in
/-- `label_counts.get(l, 0)` is the number of neighbors holding `l`. -/
theorem dictGet_labelCounts (labels : α → ℕ) (nbrs : List α) (l : ℕ) :
    dictGet (labelCounts labels nbrs) l 0 = (nbrs.filter fun y ↦ labels y = l).length := by
  rw [labelCounts, dictGet_foldl_labelCounts, dictGet_nil, zero_add]

omit [DecidableEq α] in
theorem nodup_dictKeys_labelCounts (labels : α → ℕ) (nbrs : List α) :
    (dictKeys (labelCounts labels nbrs)).Nodup := by
  suffices ∀ (l : List α) (counts : List (ℕ × ℕ)), (dictKeys counts).Nodup →
      (dictKeys (l.foldl (fun counts nbr ↦ dictAdd counts (labels nbr) 1) counts)).Nodup from
    this nbrs [] List.nodup_nil
  intro l
  induction l with
  | nil => exact fun _ h ↦ h
  | cons nbr l ih => exact fun _ h ↦ ih _ (nodup_dictKeys_dictAdd h _ _)

/-- A candidate label is held by at least as many neighbors as any other label. -/
theorem count_le_of_mem_candidates {counts : List (ℕ × ℕ)} (hnd : (dictKeys counts).Nodup)
    {l : ℕ} (hl : l ∈ candidates counts) (l' : ℕ) :
    dictGet counts l' 0 ≤ dictGet counts l 0 := by
  obtain ⟨lc, hlc, rfl⟩ := List.mem_map.mp hl
  obtain ⟨hmem, hmax⟩ := List.mem_filter.mp hlc
  rw [dictGet_eq_of_mem hnd hmem, of_decide_eq_true hmax]
  rcases dictGet_eq_default_or_mem counts l' 0 with h | h
  · rw [h]
    exact Nat.zero_le _
  · exact List.le_max?_getD_of_mem (List.mem_map_of_mem Prod.snd h)

/-! ## A sweep that changes nothing -/

/-- The labels a run may end with after a `break`: every node with neighbors holds one of the
labels most frequent among them. -/
def Stable (ids : List α) (nbrs : α → List α) (labels : α → ℕ) : Prop :=
  ∀ x ∈ ids, nbrs x ≠ [] → labels x ∈ candidates (labelCounts labels (nbrs x))

/-- Whether the outer loop of `label_propagation` leaves by `break`, with `k` sweeps left. -/
def propagateStops (rnd : RandomSource σ α) (ids : List α) (nbrs : α → List α) :
    ℕ → (α → ℕ) → σ → Bool
  | 0, _, _ => false
  | k + 1, labels, rng =>
    if (sweep rnd ids nbrs labels rng).changed then
      propagateStops rnd ids nbrs k (sweep rnd ids nbrs labels rng).labels
        (sweep rnd ids nbrs labels rng).rng
    else true

section Sweep

variable (rnd : RandomSource σ α) (nbrs : α → List α)

/-- An update after which `changed` is unset found it unset, kept the labels, and found the node
holding a candidate label. -/
theorem updateNode_of_changed_eq_false {st : Sweep α σ} {nid : α}
    (h : (updateNode rnd nbrs st nid).changed = false) :
    st.changed = false ∧ (updateNode rnd nbrs st nid).labels = st.labels ∧
      (nbrs nid ≠ [] → st.labels nid ∈ candidates (labelCounts st.labels (nbrs nid))) := by
  unfold updateNode at h ⊢
  by_cases hnil : nbrs nid = []
  · rw [if_pos hnil] at h ⊢
    exact ⟨h, rfl, fun h' ↦ absurd hnil h'⟩
  · rw [if_neg hnil] at h ⊢
    dsimp only at h ⊢
    split_ifs at h ⊢ with hne
    refine ⟨h, rfl, fun _ ↦ ?_⟩
    rw [not_not.mp hne]
    exact rnd.choice_mem _ (candidates_ne_nil (labelCounts_ne_nil _ hnil))

theorem foldl_updateNode_of_changed_eq_false : ∀ (order : List α) (st : Sweep α σ),
    (order.foldl (updateNode rnd nbrs) st).changed = false →
      st.changed = false ∧ (order.foldl (updateNode rnd nbrs) st).labels = st.labels ∧
        ∀ x ∈ order, nbrs x ≠ [] → st.labels x ∈ candidates (labelCounts st.labels (nbrs x))
  | [], _, h => ⟨h, rfl, fun _ hx ↦ absurd hx (List.not_mem_nil _)⟩
  | nid :: order, st, h => by
    obtain ⟨h₁, hl, hc⟩ := foldl_updateNode_of_changed_eq_false order _ h
    obtain ⟨h₀, hl₀, hc₀⟩ := updateNode_of_changed_eq_false rnd nbrs h₁
    rw [hl₀] at hl hc
    refine ⟨h₀, hl, fun x hx ↦ ?_⟩
    rcases List.mem_cons.mp hx with rfl | hx
    · exact hc₀
    · exact hc x hx

/-- **A sweep that changes nothing** keeps the labels, and they are stable. -/
theorem sweep_of_changed_eq_false {ids : List α} {labels : α → ℕ} {rng : σ}
    (h : (sweep rnd ids nbrs labels rng).changed = false) :
    (sweep rnd ids nbrs labels rng).labels = labels ∧ Stable ids nbrs labels := by
  obtain ⟨-, hl, hc⟩ := foldl_updateNode_of_changed_eq_false rnd nbrs _ _ h
  exact ⟨hl, fun x hx ↦ hc x ((rnd.shuffle_perm rng ids).mem_iff.mpr hx)⟩

/-- **The run.** If the outer loop leaves by `break`, the labels it returns are stable. -/
theorem propagate_stable_of_stops {ids : List α} : ∀ (k : ℕ) (labels : α → ℕ) (rng : σ),
    propagateStops rnd ids nbrs k labels rng = true →
      Stable ids nbrs (propagate rnd ids nbrs k labels rng)
  | 0, _, _, h => absurd h (by simp [propagateStops])
  | k + 1, labels, rng, h => by
    rw [propagateStops] at h
    rw [propagate]
    split_ifs at h ⊢ with hc
    · exact propagate_stable_of_stops k _ _ h
    · obtain ⟨hl, hs⟩ := sweep_of_changed_eq_false rnd nbrs (Bool.eq_false_iff.mpr hc)
      rwa [hl]

end Sweep

/-! ## Communities -/

section Output

variable (rnd : RandomSource σ α) (nodes : List (Node α)) (edges : List (Edge α))
  (maxIterations seed : ℕ)

/-- The community `label_propagation` gives a node id: the position of its final label among
the distinct final labels. -/
theorem dictGet_labelPropagation {y : α} (hy : y ∈ nodeIds nodes) :
    dictGet (labelPropagation rnd nodes edges maxIterations seed) y 0
      = (uniqueLabels (nodeIds nodes) (propagate rnd (nodeIds nodes)
          (buildNeighbors (nodeIds nodes) edges) maxIterations (initLabels (nodeIds nodes))
          (rnd.seed seed))).indexOf
        (propagate rnd (nodeIds nodes) (buildNeighbors (nodeIds nodes) edges) maxIterations
          (initLabels (nodeIds nodes)) (rnd.seed seed) y) := by
  have hne : (nodeIds nodes).length ≠ 0 := (List.length_pos_of_mem hy).ne'
  simp only [labelPropagation, if_neg hne, dictGet_map_pair, mem_firstOccurrences, if_pos hy]

omit [DecidableEq α] in
/-- A plurality survives a renaming of the labels that is injective on the nodes concerned. -/
theorem filter_length_le_of_rename {β : Type} [DecidableEq β] (l : List α) (L : α → β)
    (φ : β → ℕ) {x : α} (hinj : ∀ y ∈ l, ∀ z, z = x ∨ z ∈ l → φ (L y) = φ (L z) → L y = L z)
    (hmax : ∀ b, (l.filter fun y ↦ L y = b).length ≤ (l.filter fun y ↦ L y = L x).length)
    (c : ℕ) :
    (l.filter fun y ↦ φ (L y) = c).length ≤ (l.filter fun y ↦ φ (L y) = φ (L x)).length := by
  have hrename : ∀ z, z = x ∨ z ∈ l →
      (l.filter fun y ↦ φ (L y) = φ (L z)) = l.filter fun y ↦ L y = L z := fun z hz ↦
    List.filter_congr fun y hy ↦ by
      simp only [decide_eq_decide]
      exact ⟨hinj y hy z hz, fun h ↦ h ▸ rfl⟩
  rw [hrename x (.inl rfl)]
  by_cases hc : ∃ y₀ ∈ l, φ (L y₀) = c
  · obtain ⟨y₀, hy₀, rfl⟩ := hc
    rw [hrename y₀ (.inr hy₀)]
    exact hmax (L y₀)
  · push_neg at hc
    rw [List.filter_eq_nil_iff.mpr fun y hy ↦ by simpa using hc y hy]
    exact Nat.zero_le _

/-- **Consensus after a `break`.** If the outer loop leaves by `break`, no community is held by
more neighbors of a node than the node's own community. -/
theorem labelPropagation_plurality_of_stops
    (hstop : propagateStops rnd (nodeIds nodes) (buildNeighbors (nodeIds nodes) edges)
      maxIterations (initLabels (nodeIds nodes)) (rnd.seed seed) = true) (x : α) (c : ℕ) :
    ((buildNeighbors (nodeIds nodes) edges x).filter fun y ↦
        dictGet (labelPropagation rnd nodes edges maxIterations seed) y 0 = c).length ≤
      ((buildNeighbors (nodeIds nodes) edges x).filter fun y ↦
        dictGet (labelPropagation rnd nodes edges maxIterations seed) y 0
          = dictGet (labelPropagation rnd nodes edges maxIterations seed) x 0).length := by
  set ids := nodeIds nodes
  set nbrs := buildNeighbors ids edges
  set L := propagate rnd ids nbrs maxIterations (initLabels ids) (rnd.seed seed)
  rcases eq_or_ne (nbrs x) [] with h0 | hne
  · simp [h0]
  obtain ⟨y₁, hy₁⟩ := List.exists_mem_of_ne_nil _ hne
  have hx : x ∈ ids := (linked_of_mem_buildNeighbors hy₁).symm.mem_right
  have hmem : ∀ y ∈ nbrs x, y ∈ ids := fun y hy ↦ (linked_of_mem_buildNeighbors hy).mem_right
  have hf : ∀ c, ((nbrs x).filter fun y ↦
      dictGet (labelPropagation rnd nodes edges maxIterations seed) y 0 = c)
        = (nbrs x).filter fun y ↦ (uniqueLabels ids L).indexOf (L y) = c := fun c ↦
    List.filter_congr fun y hy ↦ by rw [dictGet_labelPropagation _ _ _ _ _ (hmem y hy)]
  rw [hf, hf, dictGet_labelPropagation _ _ _ _ _ hx]
  refine filter_length_le_of_rename _ L (fun l ↦ (uniqueLabels ids L).indexOf l)
    (fun y hy z hz ↦ labels_eq_of_indexOf_eq (hmem y hy) (hz.elim (· ▸ hx) (hmem z)))
    (fun b ↦ ?_) c
  rw [← dictGet_labelCounts, ← dictGet_labelCounts]
  exact count_le_of_mem_candidates (nodup_dictKeys_labelCounts _ _)
    (propagate_stable_of_stops rnd nbrs _ _ _ hstop x hx hne) b

/-- A generator that never reorders a list and always draws `0`. -/
def RandomSource.fixed : RandomSource Unit α where
  seed _ := ()
  shuffle s l := (l, s)
  randbelow s _ := (0, s)
  shuffle_perm _ _ := List.Perm.refl _
  randbelow_lt _ _ h := h

theorem labelPropagation_edge_plurality :
    propagateStops RandomSource.fixed (nodeIds [⟨"a"⟩, ⟨"b"⟩])
        (buildNeighbors (nodeIds [⟨"a"⟩, ⟨"b"⟩]) [⟨"a", "b"⟩]) 50
        (initLabels (nodeIds [⟨"a"⟩, ⟨"b"⟩])) () = true ∧
      ((buildNeighbors (nodeIds [⟨"a"⟩, ⟨"b"⟩]) [⟨"a", "b"⟩] "a").filter fun y ↦
          dictGet (labelPropagation RandomSource.fixed [⟨"a"⟩, ⟨"b"⟩] [⟨"a", "b"⟩] 50 42) y 0
            = 1).length ≤
        ((buildNeighbors (nodeIds [⟨"a"⟩, ⟨"b"⟩]) [⟨"a", "b"⟩] "a").filter fun y ↦
          dictGet (labelPropagation RandomSource.fixed [⟨"a"⟩, ⟨"b"⟩] [⟨"a", "b"⟩] 50 42) y 0
            = dictGet (labelPropagation RandomSource.fixed [⟨"a"⟩, ⟨"b"⟩] [⟨"a", "b"⟩] 50 42)
              "a" 0).length :=
  ⟨by decide, labelPropagation_plurality_of_stops .fixed [⟨"a"⟩, ⟨"b"⟩] [⟨"a", "b"⟩] 50 42
    (by decide) "a" 1⟩

/-! ## Isolated nodes -/

/-- A node on no valid edge is connected to itself only. -/
theorem Connected.eq_of_isolated {ids : List α} {x y : α}
    (hiso : ∀ e ∈ validEdges ids edges, e.source ≠ x ∧ e.target ≠ x)
    (h : Connected ids edges x y) : y = x := by
  rcases Relation.ReflTransGen.cases_head h with rfl | ⟨z, ⟨e, he, hxz⟩, -⟩
  · rfl
  · rcases hxz with ⟨hs, -⟩ | ⟨-, ht⟩
    exacts [absurd hs (hiso e he).1, absurd ht (hiso e he).2]

/-- **Isolated nodes.** A node id on no edge between node ids is alone in its community, for
every generator, seed and iteration limit. -/
theorem labelPropagation_isolated {x : α} (hx : x ∈ nodeIds nodes)
    (hiso : ∀ e ∈ validEdges (nodeIds nodes) edges, e.source ≠ x ∧ e.target ≠ x) :
    ∀ p ∈ labelPropagation rnd nodes edges maxIterations seed,
      p.2 = dictGet (labelPropagation rnd nodes edges maxIterations seed) x 0 → p.1 = x := by
  intro p hp hpx
  have hne : (nodeIds nodes).length ≠ 0 := (List.length_pos_of_mem hx).ne'
  have hinv := LabelInv.propagate rnd maxIterations (rnd.seed seed)
    (labelInv_initLabels (nodeIds nodes) edges)
  have hp' := hp
  simp only [labelPropagation, if_neg hne, List.mem_map, mem_firstOccurrences] at hp'
  obtain ⟨y, hy, rfl⟩ := hp'
  rw [dictGet_labelPropagation _ _ _ _ _ hx] at hpx
  exact (hinv.connected hx hy (labels_eq_of_indexOf_eq hx hy hpx.symm)).eq_of_isolated edges hiso

theorem labelPropagation_isolated_third :
    "c" ∈ nodeIds [⟨"a"⟩, ⟨"b"⟩, ⟨"c"⟩] ∧
      (∀ e ∈ validEdges (nodeIds [⟨"a"⟩, ⟨"b"⟩, ⟨"c"⟩]) [⟨"a", "b"⟩],
        e.source ≠ "c" ∧ e.target ≠ "c") ∧
      ∀ p ∈ labelPropagation RandomSource.fixed [⟨"a"⟩, ⟨"b"⟩, ⟨"c"⟩] [⟨"a", "b"⟩] 100 42,
        p.2 = dictGet (labelPropagation RandomSource.fixed [⟨"a"⟩, ⟨"b"⟩, ⟨"c"⟩] [⟨"a", "b"⟩]
          100 42) "c" 0 → p.1 = "c" :=
  ⟨by decide, by decide, labelPropagation_isolated .fixed _ _ 100 42 (by decide) (by decide)⟩

end Output

end Plexus
