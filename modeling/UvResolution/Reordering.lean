-- The order of a selection does not matter (resolution.rs, lines 70 to 320 and 409 to 478):
-- `from_state` builds the same graph from two orders of one selection, up to the numbering
-- of its nodes, and `marker_tree` reads the nodes only as a set, so nodes in another order
-- give the same conjuncts in another order, which evaluate alike.
import UvResolution.Display
import UvResolution.MarkerTree

namespace uv_resolver.resolution

open uv_resolver Outcome

variable {V : Type}

/-! ## The marker tree of reordered nodes -/

section MarkerTree

variable {ext : Externals} {manifest : Manifest}
  {distributions : VersionId V → Option MetadataResponse} {marker_env : MarkerEnvironment}

/-- `marker_tree` returns a marker exactly when it can read the requirements of every
node. -/
theorem marker_tree_isOk {g : ResolutionGraph V} :
    (∃ m, marker_tree ext g manifest distributions marker_env = ok m) ↔
      ∀ dist ∈ g.petgraph.nodes, ∃ requirements,
        node_requirements ext distributions dist = ok requirements := by
  simp only [marker_tree, bind_eq_ok, Outcome.ok.injEq, foldlM_ok_iff]
  constructor
  · rintro ⟨_, _, ⟨as, has, -⟩, -⟩ dist hd
    obtain ⟨a, -, ha⟩ := exists_of_mem_forall₂ has hd
    exact ⟨a, ha⟩
  · intro h
    obtain ⟨as, has⟩ := exists_forall₂_of_forall h
    exact ⟨_, _, ⟨as, has, rfl⟩, rfl⟩

/-- The markers that `marker_tree` reads depend on the nodes only as a set. -/
theorem collectedMarker_perm {g₁ g₂ : ResolutionGraph V}
    (hp : g₁.petgraph.nodes.Perm g₂.petgraph.nodes) (t : MarkerTree) :
    CollectedMarker ext g₁ manifest distributions t ↔
      CollectedMarker ext g₂ manifest distributions t := by
  simp only [CollectedMarker, hp.mem_iff]

/-- A marker tree of the nodes of a graph in another order: `marker_tree` then still returns
a marker, and the two are conjunctions of the same conjuncts, in another order, so that
they evaluate alike in every environment. -/
theorem marker_tree_perm {g₁ g₂ : ResolutionGraph V} {m₁ : MarkerTree}
    (hp : g₁.petgraph.nodes.Perm g₂.petgraph.nodes)
    (h₁ : marker_tree ext g₁ manifest distributions marker_env = ok m₁) :
    ∃ m₂, marker_tree ext g₂ manifest distributions marker_env = ok m₂ ∧
      ∃ ps₁ ps₂ : List MarkerParam, m₁ = .And (ps₁.map (marker_conjunct marker_env)) ∧
        m₂ = .And (ps₂.map (marker_conjunct marker_env)) ∧ ps₁.Perm ps₂ ∧
        ∀ value extra cmp, evaluate_marker value extra cmp m₁ = evaluate_marker value extra cmp m₂ := by
  obtain ⟨m₂, h₂⟩ : ∃ m₂, marker_tree ext g₂ manifest distributions marker_env = ok m₂ :=
    marker_tree_isOk.2 fun dist hd => marker_tree_isOk.1 ⟨m₁, h₁⟩ dist (hp.mem_iff.2 hd)
  obtain ⟨seen₁, rfl, hseen₁⟩ := marker_tree_ok h₁
  obtain ⟨seen₂, rfl, hseen₂⟩ := marker_tree_ok h₂
  have hperm : seen₁.elems.Perm seen₂.elems := (List.perm_ext_iff_of_nodup seen₁.nodup
    seen₂.nodup).2 fun p => by simp only [hseen₁, hseen₂, collectedMarker_perm hp]
  refine ⟨_, h₂, _, _, rfl, rfl, hperm, fun value extra cmp => Bool.eq_iff_iff.2 ?_⟩
  simp only [evaluate_marker, evaluate_all_eq_true, (hperm.map _).mem_iff]

theorem marker_tree_perm_sample : ∃ (g : ResolutionGraph Nat) (m : MarkerTree),
    from_state sample_externals sample_selection sample_pins sample_packages sample_distributions
      sample_state sample_preferences .empty = ok g ∧
    marker_tree sample_externals g ⟨[], [], id⟩ sample_distributions
      ⟨fun _ => "3.12", fun _ => "linux"⟩ = ok m ∧
    ∃ m₂, marker_tree sample_externals { g with petgraph.nodes := g.petgraph.nodes.reverse }
        ⟨[], [], id⟩ sample_distributions ⟨fun _ => "3.12", fun _ => "linux"⟩ = ok m₂ ∧
      ∃ ps₁ ps₂ : List MarkerParam,
        m = .And (ps₁.map (marker_conjunct ⟨fun _ => "3.12", fun _ => "linux"⟩)) ∧
        m₂ = .And (ps₂.map (marker_conjunct ⟨fun _ => "3.12", fun _ => "linux"⟩)) ∧
        ps₁.Perm ps₂ ∧
        ∀ value extra cmp, evaluate_marker value extra cmp m = evaluate_marker value extra cmp m₂ :=
  ⟨_, _, rfl, rfl, marker_tree_perm (List.reverse_perm _).symm rfl⟩

end MarkerTree

/-! ## The graph of two orders of one selection -/

section Graph

variable [LinearOrder V] {ext : Externals} {pins : FilePins V}
  {packages : PackageName → Option (VersionsResponse V)}
  {distributions : VersionId V → Option MetadataResponse}
  {preferences : Preferences V} {editables : Editables}
  {selection₁ selection₂ : SelectedDependencies V} {state₁ state₂ : State V}
  {g₁ g₂ : ResolutionGraph V}

/-- Two orders of one selection, and of its lists of incompatibilities, without two base
entries of one name, give the same graph up to the numbering of its nodes: the same nodes,
the same hashes and extras for each name, the same edges between names, and the same
editables. -/
theorem from_state_reordered (hr : Reordered selection₁ selection₂ state₁ state₂)
    (h₁ : from_state ext selection₁ pins packages distributions state₁ preferences editables = ok g₁)
    (h₂ : from_state ext selection₂ pins packages distributions state₂ preferences editables = ok g₂)
    (hnames : (g₁.petgraph.nodes.map ResolvedDist.name).Nodup) :
    g₁.petgraph.nodes.Perm g₂.petgraph.nodes ∧
      (∀ d ∈ g₁.petgraph.nodes, g₁.hashes.get d.name = g₂.hashes.get d.name) ∧
      (∀ n, ((g₁.extras.get n).getD []).Perm ((g₂.extras.get n).getD [])) ∧
      (∀ n m, (n, m) ∈ g₁.edge_names ↔ (n, m) ∈ g₂.edge_names) ∧
      g₁.editables = g₂.editables := by
  obtain ⟨-, -, -, -, -, -, -, he₁⟩ := from_state_ok h₁
  obtain ⟨-, -, -, -, -, -, -, he₂⟩ := from_state_ok h₂
  refine ⟨(nodes_reordered hr h₁ h₂ hnames).1, (nodes_reordered hr h₁ h₂ hnames).2,
    extras_reordered hr h₁ h₂, fun n m => ?_, he₁.trans he₂.symm⟩
  rw [mem_edge_names h₁, mem_edge_names h₂]
  exact exists_congr fun r => dependsOn_perm hr.entries hr.store hr.incompatibilities

theorem from_state_reordered_sample : ∃ g₁ g₂ : ResolutionGraph Nat,
    Reordered sample_selection sample_selection_reversed sample_state sample_state ∧
    from_state sample_externals sample_selection sample_pins sample_packages sample_distributions
      sample_state sample_preferences .empty = ok g₁ ∧
    from_state sample_externals sample_selection_reversed sample_pins sample_packages
      sample_distributions sample_state sample_preferences .empty = ok g₂ ∧
    (g₁.petgraph.nodes.map ResolvedDist.name).Nodup ∧
    g₁.petgraph.nodes.Perm g₂.petgraph.nodes ∧
      (∀ d ∈ g₁.petgraph.nodes, g₁.hashes.get d.name = g₂.hashes.get d.name) ∧
      (∀ n, ((g₁.extras.get n).getD []).Perm ((g₂.extras.get n).getD [])) ∧
      (∀ n m, (n, m) ∈ g₁.edge_names ↔ (n, m) ∈ g₂.edge_names) ∧
      g₁.editables = g₂.editables :=
  have hr : Reordered sample_selection sample_selection_reversed sample_state sample_state :=
    ⟨List.reverse_perm _ |>.symm, rfl, fun _ => .refl _⟩
  ⟨_, _, hr, rfl, rfl, by decide, from_state_reordered hr
    (rfl : from_state sample_externals sample_selection sample_pins sample_packages
      sample_distributions sample_state sample_preferences .empty = _)
    (rfl : from_state sample_externals sample_selection_reversed sample_pins sample_packages
      sample_distributions sample_state sample_preferences .empty = _) (by decide)⟩

end Graph

end uv_resolver.resolution
