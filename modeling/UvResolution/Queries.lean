-- The queries of a resolution graph (resolution.rs, lines 322 to 352 and 810 to 856): its
-- size, whether it holds a package, its distributions, what a diagnostic is about, and the
-- `Resolution` that the command line prints, one distribution for each name. Each is a
-- pure function of the graph; on a graph that `from_state` builds, each one answers for
-- the base packages of the selection.
import UvResolution.NodePass

namespace uv_resolver

/-! ## Diagnostics -/

namespace Diagnostic

variable {V : Type}

/-- `Diagnostic::message`, with the text that `ResolvedDist`'s `Display` writes. -/
def message (dist_text : ResolvedDist V → String) : Diagnostic V → String
  | .MissingExtra dist extra =>
    "The package `" ++ dist_text dist ++ "` does not have an extra named `" ++ extra ++ "`."

/-- `Diagnostic::includes`. -/
def includes (name : PackageName) : Diagnostic V → Bool
  | .MissingExtra dist _ => name == dist.name

end Diagnostic

namespace resolution

open Outcome

variable {V : Type}

/-! ## The queries -/

/-- `ResolutionGraph::is_empty`. -/
def ResolutionGraph.is_empty (g : ResolutionGraph V) : Bool := g.petgraph.nodes.length == 0

/-- `ResolutionGraph::into_distributions`: the nodes' distributions, in the order of their
indices. -/
def ResolutionGraph.into_distributions (g : ResolutionGraph V) : List (ResolvedDist V) :=
  g.petgraph.nodes

/-- `distribution_types::Resolution`, built by `Resolution::new` from the distribution
chosen for each name. -/
structure Resolution (V : Type) where
  packages : FxHashMap PackageName (ResolvedDist V)

/-- `From<ResolutionGraph> for Resolution` (lines 810 to 825): each node's name and
distribution, in the order of the indices, collected into a map, where a later node of a
name replaces an earlier one. -/
def ResolutionGraph.into_resolution (g : ResolutionGraph V) : Resolution V :=
  ⟨g.petgraph.nodes.foldl (fun packages dist => packages.insert dist.name dist) .empty⟩

/-! ## The queries of a graph that `from_state` builds -/

section FromState

variable [LinearOrder V] {ext : Externals} {selection : SelectedDependencies V}
  {pins : FilePins V} {packages : PackageName → Option (VersionsResponse V)}
  {distributions : VersionId V → Option MetadataResponse} {state : State V}
  {preferences : Preferences V} {editables : Editables} {g : ResolutionGraph V}

/-- The nodes of the graph hold the distributions of the base entries of the selection, in
their order. -/
theorem nodes_from_state
    (h : from_state ext selection pins packages distributions state preferences editables = ok g) :
    List.Forall₂ (fun x dist => BaseDist ext pins editables x.1 x.2.1 x.2.2 dist)
      (base_entries selection.entries) g.petgraph.nodes := by
  obtain ⟨b, hb, -, hnodes, -⟩ := from_state_ok h
  obtain ⟨adds, hadds, hn, -⟩ := node_pass_added hb
  rw [hnodes, hn, List.forall₂_map_right_iff]
  exact hadds.imp fun _ _ h => h.2.1

/-- On a graph that `from_state` builds, the queries answer for the base entries of the
selection: the graph has one node for each, `into_distributions` gives their distributions
in their order, `contains` says whether one has the name, and the `Resolution` that the
graph converts to holds a name exactly then, with the distribution of the last base entry
of that name: the editable's, the pinned one, or the one of the precise URL. -/
theorem queries_from_state
    (h : from_state ext selection pins packages distributions state preferences editables = ok g) :
    g.len = (base_entries selection.entries).length ∧
    (g.is_empty = true ↔ base_entries selection.entries = []) ∧
    List.Forall₂ (fun x dist => BaseDist ext pins editables x.1 x.2.1 x.2.2 dist)
      (base_entries selection.entries) g.into_distributions ∧
    ∀ n, (g.contains n = true ↔ ∃ x ∈ base_entries selection.entries, x.1 = n) ∧
      Option.Rel (fun x dist => BaseDist ext pins editables x.1 x.2.1 x.2.2 dist)
        ((base_entries selection.entries).filter fun x => x.1 = n).getLast?
        (g.into_resolution.packages.get n) := by
  have hf := nodes_from_state h
  have hname : ∀ (x : PackageName × Option VerbatimUrl × V) (dist : ResolvedDist V),
      BaseDist ext pins editables x.1 x.2.1 x.2.2 dist → dist.name = x.1 :=
    fun _ _ hd => baseDist_name ext pins editables hd
  have hlen : g.len = (base_entries selection.entries).length := hf.length_eq.symm
  refine ⟨hlen, ?_, hf, fun n => ⟨?_, ?_⟩⟩
  · rw [ResolutionGraph.is_empty, ← List.length_eq_zero, ← hlen]
    exact beq_iff_eq
  · simp only [ResolutionGraph.contains, List.any_eq_true, decide_eq_true_eq]
    exact ⟨fun ⟨d, hd, hdn⟩ => (exists_of_mem_forall₂_right hf hd).imp fun x ⟨hx, hxd⟩ =>
        ⟨hx, (hname _ _ hxd).symm.trans hdn⟩,
      fun ⟨x, hx, hxn⟩ => (exists_of_mem_forall₂ hf hx).imp fun d ⟨hd, hxd⟩ =>
        ⟨hd, (hname _ _ hxd).trans hxn⟩⟩
  · have hfilter := List.rel_filter (p := fun x : PackageName × Option VerbatimUrl × V =>
      decide (x.1 = n)) (q := fun dist : ResolvedDist V => decide (dist.name = n))
      (fun x d hxd => by simp [hname x d hxd]) hf
    simpa [ResolutionGraph.into_resolution, FxHashMap.get_foldl_insert] using rel_getLast? hfilter

theorem queries_from_state_sample : ∃ g : ResolutionGraph Nat,
    from_state sample_externals sample_selection sample_pins sample_packages sample_distributions
      sample_state sample_preferences .empty = ok g ∧
    g.len = (base_entries sample_selection.entries).length ∧
    (g.is_empty = true ↔ base_entries sample_selection.entries = []) ∧
    List.Forall₂ (fun x dist => BaseDist sample_externals sample_pins .empty x.1 x.2.1 x.2.2 dist)
      (base_entries sample_selection.entries) g.into_distributions ∧
    ∀ n, (g.contains n = true ↔ ∃ x ∈ base_entries sample_selection.entries, x.1 = n) ∧
      Option.Rel (fun x dist => BaseDist sample_externals sample_pins .empty x.1 x.2.1 x.2.2 dist)
        ((base_entries sample_selection.entries).filter fun x => x.1 = n).getLast?
        (g.into_resolution.packages.get n) :=
  ⟨_, rfl, queries_from_state (rfl : from_state sample_externals sample_selection sample_pins
    sample_packages sample_distributions sample_state sample_preferences .empty = _)⟩

/-- The diagnostics that `includes` picks for a name are those of the extras of that name
that the metadata consulted does not provide, one for each, in the order of the selection,
each about a distribution of the name and naming the extra. -/
theorem diagnostics_includes
    (h : from_state ext selection pins packages distributions state preferences editables = ok g)
    (n : PackageName) :
    List.Forall₂ (fun x d => ∃ dist : ResolvedDist V, dist.name = x.1 ∧ d = .MissingExtra dist x.2.1)
      (((extra_entries selection.entries).filter fun x => !provides_extra distributions editables x).filter
        fun x => x.1 = n)
      (g.diagnostics.filter (Diagnostic.includes n)) := by
  obtain ⟨b, hb, -, -, -, -, hdiag, -⟩ := from_state_ok h
  rw [hdiag]
  refine List.rel_filter (fun x d hxd => ?_) (node_pass_diagnostics hb)
  obtain ⟨dist, hn, rfl⟩ := hxd
  simp only [Diagnostic.includes, hn, decide_eq_true_eq, beq_iff_eq]
  exact eq_comm

theorem diagnostics_includes_sample : ∃ g : ResolutionGraph Nat,
    from_state sample_externals sample_selection sample_pins sample_packages sample_distributions
      sample_state sample_preferences .empty = ok g ∧
    List.Forall₂ (fun x d => ∃ dist : ResolvedDist Nat, dist.name = x.1 ∧ d = .MissingExtra dist x.2.1)
      (((extra_entries sample_selection.entries).filter
          fun x => !provides_extra sample_distributions .empty x).filter fun x => x.1 = "flask")
      (g.diagnostics.filter (Diagnostic.includes "flask")) :=
  ⟨_, rfl, diagnostics_includes (rfl : from_state sample_externals sample_selection sample_pins
    sample_packages sample_distributions sample_state sample_preferences .empty = _) "flask"⟩

end FromState

end resolution

end uv_resolver
