import Plexus.Python.Collections

/-!
# The graph export

The graph-analysis scripts read a Plexus graph export, a list of node records and a list of edge
records. Of a node they read only `n["id"]`, and of an edge only `edge["source"]` and
`edge["target"]`; the records are modelled with just those fields. Ids are of any type with
decidable equality (they are strings in an export).

Both scripts build a dict keyed by the node ids and then walk the edges, keeping exactly those
whose two ends are keys of that dict (`if src in incoming and tgt in incoming`). `validEdges` is
that filter, and the adjacency each script builds is a function of it alone.
-/

namespace Plexus

/-- A node record of the export; `n["id"]` is all the scripts read. -/
structure Node (α : Type) where
  /-- `n["id"]`. -/
  id : α
deriving DecidableEq, Repr

/-- An edge record of the export, directed from `source` to `target`. -/
structure Edge (α : Type) where
  /-- `edge["source"]`. -/
  source : α
  /-- `edge["target"]`. -/
  target : α
deriving DecidableEq, Repr

variable {α : Type} [DecidableEq α]

/-- `node_ids = [n["id"] for n in nodes]`. -/
def nodeIds (nodes : List (Node α)) : List α := nodes.map Node.id

/-- The edges the scripts act on, in input order: those whose source and target are node ids. -/
def validEdges (ids : List α) (edges : List (Edge α)) : List (Edge α) :=
  edges.filter fun e ↦ e.source ∈ ids ∧ e.target ∈ ids

@[simp] theorem mem_validEdges {ids : List α} {edges : List (Edge α)} {e : Edge α} :
    e ∈ validEdges ids edges ↔ e ∈ edges ∧ e.source ∈ ids ∧ e.target ∈ ids := by
  simp [validEdges]

theorem validEdges_cons (ids : List α) (e : Edge α) (edges : List (Edge α)) :
    validEdges ids (e :: edges)
      = if e.source ∈ ids ∧ e.target ∈ ids then e :: validEdges ids edges
        else validEdges ids edges := by
  by_cases h : e.source ∈ ids ∧ e.target ∈ ids <;> simp [validEdges, List.filter_cons, h]

end Plexus
