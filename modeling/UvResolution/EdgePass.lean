-- The laws of the edge pass of `from_state`: each incompatibility listed under a selected
-- package names at most one dependency, the pass is the calls of `update_edge` for those
-- dependencies in order, and so an edge joins two nodes exactly when the package of one
-- depends on the package of the other.
import UvResolution.NodePass

namespace uv_resolver.resolution

open uv_resolver Outcome

variable {V : Type}

/-! ## The dependencies that the edge pass visits -/

/-- The node pair and the range of the `update_edge` call for a dependency, when the
inverse map knows both names. -/
def dependency_edge (inverse : FxHashMap PackageName NodeIndex)
    (d : PackageName × PackageName × Range V) : Option (NodeIndex × NodeIndex × Range V) := do
  let i ← inverse.get d.1
  let j ← inverse.get d.2.1
  some (i, j, d.2.2)

@[simp] theorem dependency_edge_eq_some {inverse : FxHashMap PackageName NodeIndex}
    {d : PackageName × PackageName × Range V} {i j : NodeIndex} {r : Range V} :
    dependency_edge inverse d = some (i, j, r) ↔
      inverse.get d.1 = some i ∧ inverse.get d.2.1 = some j ∧ d.2.2 = r := by
  simp only [dependency_edge]
  cases inverse.get d.1 <;> cases inverse.get d.2.1 <;> simp [and_assoc]

@[simp] theorem dependency_edge_isSome {inverse : FxHashMap PackageName NodeIndex}
    {d : PackageName × PackageName × Range V} :
    (dependency_edge inverse d).isSome ↔ (inverse.get d.1).isSome ∧ (inverse.get d.2.1).isSome := by
  simp only [dependency_edge]
  cases inverse.get d.1 <;> cases inverse.get d.2.1 <;> simp

/-- The edges of the graph, as the names of the packages that they join. -/
def ResolutionGraph.edge_names (g : ResolutionGraph V) : List (PackageName × PackageName) :=
  g.petgraph.pairs.filterMap fun p => do
    let a ← g.petgraph.nodes[p.1]?
    let c ← g.petgraph.nodes[p.2]?
    some (a.name, c.name)

/-! ## The lock -/

/-- What `lock` calls of the lockfile's types, which live outside these sources:
`Distribution::from_resolved_dist`, `Distribution::add_dependency` and `Lock::new`. -/
structure LockApi (V LockError Distribution Lock : Type) where
  from_resolved_dist : ResolvedDist V → Except LockError Distribution
  add_dependency : Distribution → ResolvedDist V → Distribution
  new : List Distribution → Except LockError Lock

section Lock

variable {ε D L : Type}

/-- The body of the loop of `lock`, for one node: its locked distribution, given a
dependency on each of its out-neighbours. -/
def lock_node (api : LockApi V ε D L) (g : ResolutionGraph V) (node_index : NodeIndex) :
    Outcome ε D := do
  let dist ← g.petgraph.index node_index
  let locked_dist ← lift id (api.from_resolved_dist dist)
  (g.petgraph.neighbors node_index).foldlM (fun locked_dist edge => do
    let dependency_dist ← g.petgraph.index edge
    ok (api.add_dependency locked_dist dependency_dist)) locked_dist

/-- `ResolutionGraph::lock`. -/
def ResolutionGraph.lock (api : LockApi V ε D L) (g : ResolutionGraph V) : Outcome ε L := do
  let locked_dists ← (List.range g.petgraph.nodes.length).foldlM (fun locked_dists node_index => do
    let locked_dist ← lock_node api g node_index
    ok (locked_dists ++ [locked_dist])) []
  lift id (api.new locked_dists)

/-- A lock that `lock` returns is `Lock::new` of one locked distribution for each node, in
order, which had `add_dependency` called with the distribution of each out-neighbour of
the node, in the order of `neighbors`. -/
theorem lock_ok {api : LockApi V ε D L} {g : ResolutionGraph V} {lock : L}
    (h : g.lock api = ok lock) :
    ∃ dists, api.new dists = .ok lock ∧
      List.Forall₂ (fun i d => ∃ dist d₀ deps, g.petgraph.nodes[i]? = some dist ∧
          api.from_resolved_dist dist = .ok d₀ ∧
          List.Forall₂ (fun j dep => g.petgraph.nodes[j]? = some dep) (g.petgraph.neighbors i) deps ∧
          d = deps.foldl api.add_dependency d₀)
        (List.range g.petgraph.nodes.length) dists := by
  simp only [ResolutionGraph.lock, bind_eq_ok, lift_eq_ok] at h
  obtain ⟨ds, hds, hnew⟩ := h
  obtain ⟨as, has, rfl⟩ := (foldlM_ok_iff _ _ _ _ _).1 hds
  refine ⟨as, by simpa [foldl_append_singleton] using hnew, has.imp fun i d hd => ?_⟩
  simp only [lock_node, bind_eq_ok, Graph.index_eq_ok, lift_eq_ok] at hd
  obtain ⟨dist, hdist, d₀, hd₀, hd⟩ := hd
  obtain ⟨deps, hdeps, rfl⟩ := (foldlM_ok_iff _ _ _ _ _).1 hd
  exact ⟨dist, d₀, deps, hdist, hd₀, hdeps.imp fun j dep h => (Graph.index_eq_ok _ _ _).1 h, rfl⟩

end Lock

variable [LinearOrder V]

/-- The dependencies of one selected entry, in the order of its incompatibilities. -/
def package_dependencies (state : State V) (entry : PubGrubPackage × V) :
    List (PackageName × PackageName × Range V) :=
  ((state.incompatibilities.get entry.1).getD []).filterMap fun id =>
    dependency_of entry.1 entry.2 (state.incompatibility_store id).kind

/-- Every dependency that the edge pass visits, in the order it visits them. -/
def dependencies (state : State V) (entries : List (PubGrubPackage × V)) :
    List (PackageName × PackageName × Range V) :=
  entries.flatMap (package_dependencies state)

/-- A selected package `Package(n, _, _)`, at `v`, lists a `FromDependencyOf` incompatibility
on `Package(m, _, _)` with range `r`, whose own range holds `v`, and `n ≠ m`. -/
def DependsOn (state : State V) (entries : List (PubGrubPackage × V)) (n m : PackageName)
    (r : Range V) : Prop :=
  ∃ p v, (p, v) ∈ entries ∧ ∃ id ∈ (state.incompatibilities.get p).getD [],
    ∃ S x u y w, (state.incompatibility_store id).kind = .FromDependencyOf p S (.Package m y w) r ∧
      p = .Package n x u ∧ n ≠ m ∧ S.contains v = true

theorem dependency_of_eq_some {package : PubGrubPackage} {version : V} {kind : Kind V}
    {n m : PackageName} {r : Range V} :
    dependency_of package version kind = some (n, m, r) ↔
      ∃ S x u y w, kind = .FromDependencyOf package S (.Package m y w) r ∧
        package = .Package n x u ∧ n ≠ m ∧ S.contains version = true := by
  constructor
  · intro h
    unfold dependency_of at h
    split at h
    · split at h
      · cases h
      · split at h
        · split at h
          · cases h
          · split at h
            · cases h; simp_all
            · cases h
        · cases h
    · cases h
  · rintro ⟨S, x, u, y, w, rfl, rfl, hnm, hS⟩
    simp [dependency_of, hnm, hS]

theorem mem_dependencies {state : State V} {entries : List (PubGrubPackage × V)}
    {n m : PackageName} {r : Range V} :
    (n, m, r) ∈ dependencies state entries ↔ DependsOn state entries n m r := by
  simp only [dependencies, package_dependencies, List.mem_flatMap, List.mem_filterMap,
    dependency_of_eq_some, DependsOn, Prod.exists]

/-! ## The edge pass is the calls of `update_edge` for the dependencies -/

section Loops

variable {inverse : FxHashMap PackageName NodeIndex} {g g' : Graph (ResolvedDist V) (Range V)}

/-- On a graph that holds every node the inverse map names, the body of the inner loop
succeeds exactly when the inverse map knows both names of its dependency, and makes the
one `update_edge` call. -/
theorem incompatibility_edge_ok {package : PubGrubPackage} {version : V} {kind : Kind V}
    (hbound : ∀ n i, inverse.get n = some i → i < g.nodes.length) :
    incompatibility_edge inverse package version g kind = ok g' ↔
      (∀ d, dependency_of package version kind = some d → (dependency_edge inverse d).isSome) ∧
      g' = g.set_edges ((dependency_of package version kind).bind (dependency_edge inverse)).toList := by
  unfold incompatibility_edge
  cases dependency_of package version kind with
  | none =>
    simp only [Option.none_bind, Option.toList, reduceCtorEq, false_implies, implies_true,
      true_and, Outcome.ok.injEq]
    exact eq_comm
  | some d =>
    obtain ⟨n, m, r⟩ := d
    simp only [bind_eq_ok, FxHashMap.index_eq_ok]
    cases hn : inverse.get n with
    | none => simp [dependency_edge, hn]
    | some i =>
      cases hm : inverse.get m with
      | none => simp [dependency_edge, hn, hm]
      | some j =>
        have hu := Graph.update_edge_eq (ε := ResolveError) g i j r
          (.inr ⟨hbound _ _ hn, hbound _ _ hm⟩)
        simp [dependency_edge, hn, hm, hu]
        exact eq_comm

/-- The inner loop, on such a graph, succeeds exactly when the package has incompatibilities
and the inverse map knows the names of all its dependencies, and makes their calls. -/
theorem package_edges_ok {state : State V} {package : PubGrubPackage} {version : V}
    (hbound : ∀ n i, inverse.get n = some i → i < g.nodes.length) :
    package_edges state inverse package version g = ok g' ↔
      (state.incompatibilities.get package).isSome ∧
      (∀ d ∈ package_dependencies state (package, version), (dependency_edge inverse d).isSome) ∧
      g' = g.set_edges ((package_dependencies state (package, version)).filterMap
        (dependency_edge inverse)) := by
  simp only [package_edges, bind_eq_ok, FxHashMap.index_eq_ok, package_dependencies]
  cases state.incompatibilities.get package with
  | none => simp
  | some ids =>
    simp only [Option.some.injEq, exists_eq_left', Option.isSome_some, true_and, Option.getD_some]
    rw [foldlM_ok_iff_of_step (fun b : Graph (ResolvedDist V) (Range V) => b.nodes = g.nodes) _
      (f := fun petgraph id => incompatibility_edge inverse package version petgraph
        (state.incompatibility_store id).kind)
      (fun _ _ _ hb => incompatibility_edge_ok (hb ▸ hbound)) (fun _ _ hb => by simpa using hb) rfl]
    simp only [Graph.foldl_set_edges, List.filterMap_filterMap, List.mem_filterMap,
      ← List.filterMap_eq_flatMap_toList, forall_exists_index, and_imp]
    exact and_congr_left' ⟨fun h d x hx hd => h x hx d hd, fun h x hx d hd => h d x hx hd⟩

/-- The edge pass, on such a graph, succeeds exactly when every selected package has
incompatibilities and the inverse map knows both names of every dependency, and it makes
the calls of all the dependencies, in the order it visits them. -/
theorem edge_pass_ok {state : State V} {entries : List (PubGrubPackage × V)}
    (hbound : ∀ n i, inverse.get n = some i → i < g.nodes.length) :
    edge_pass state inverse entries g = ok g' ↔
      (∀ e ∈ entries, (state.incompatibilities.get e.1).isSome) ∧
      (∀ d ∈ dependencies state entries, (dependency_edge inverse d).isSome) ∧
      g' = g.set_edges ((dependencies state entries).filterMap (dependency_edge inverse)) := by
  unfold edge_pass
  rw [foldlM_ok_iff_of_step (fun b : Graph (ResolvedDist V) (Range V) => b.nodes = g.nodes) _
    (f := fun petgraph (entry : PubGrubPackage × V) =>
      package_edges state inverse entry.1 entry.2 petgraph)
    (u := fun b entry => b.set_edges ((package_dependencies state entry).filterMap
      (dependency_edge inverse)))
    (fun _ _ _ hb => (package_edges_ok (hb ▸ hbound)).trans and_assoc.symm)
    (fun _ _ hb => by simpa using hb) rfl]
  simp only [Graph.foldl_set_edges, dependencies, List.filterMap_flatMap, List.mem_flatMap,
    imp_and, forall_and, forall_exists_index, and_imp, and_assoc]
  exact and_congr_right' (and_congr_left' ⟨fun h d x hx hd => h x hx d hd,
    fun h x hx d hd => h d x hx hd⟩)

/-- The edge pass returns no error: each of its failures is a panic. -/
theorem edge_pass_ne_err (state : State V) (entries : List (PubGrubPackage × V))
    (e : ResolveError) : edge_pass state inverse entries g ≠ err e := by
  intro h
  obtain ⟨_, _, -, h⟩ := foldlM_err _ _ _ _ h
  simp only [package_edges, bind_eq_err] at h
  rcases h with h | ⟨_, -, h⟩
  · exact FxHashMap.index_ne_err _ _ _ h
  obtain ⟨_, _, -, h⟩ := foldlM_err _ _ _ _ h
  unfold incompatibility_edge at h
  split at h
  · simp only [bind_eq_err] at h
    rcases h with h | ⟨_, -, h | ⟨_, -, h⟩⟩
    · exact FxHashMap.index_ne_err _ _ _ h
    · exact FxHashMap.index_ne_err _ _ _ h
    · exact Graph.update_edge_ne_err _ _ _ _ _ h
  · cases h

end Loops

/-- Two orders of one selection, and of each list of incompatibilities, have the same
dependencies. -/
theorem dependsOn_perm {state₁ state₂ : State V} {entries₁ entries₂ : List (PubGrubPackage × V)}
    (hentries : entries₁.Perm entries₂)
    (hstore : state₁.incompatibility_store = state₂.incompatibility_store)
    (hinc : ∀ p, ((state₁.incompatibilities.get p).getD []).Perm
      ((state₂.incompatibilities.get p).getD []))
    {n m : PackageName} {r : Range V} :
    DependsOn state₁ entries₁ n m r ↔ DependsOn state₂ entries₂ n m r := by
  simp only [DependsOn, hentries.mem_iff, (hinc _).mem_iff, hstore]

/-! ## The edges of the graph -/

section Graph

variable {ext : Externals} {selection : SelectedDependencies V} {pins : FilePins V}
  {packages : PackageName → Option (VersionsResponse V)}
  {distributions : VersionId V → Option MetadataResponse} {state : State V}
  {preferences : Preferences V} {editables : Editables} {g : ResolutionGraph V} {b : Builder V}

/-- The graph of `from_state` has the edges of the `update_edge` calls for the dependencies
that the edge pass visits, made on the graph of the node pass, which has none; and the
inverse map knows both names of each of those dependencies. -/
theorem from_state_petgraph
    (h : from_state ext selection pins packages distributions state preferences editables = ok g)
    (hb : node_pass ext pins packages distributions preferences editables selection.entries = ok b) :
    g.petgraph = b.petgraph.set_edges
        ((dependencies state selection.entries).filterMap (dependency_edge b.inverse)) ∧
      ∀ d ∈ dependencies state selection.entries, (dependency_edge b.inverse d).isSome := by
  obtain ⟨b', hb', hpg, -⟩ := from_state_ok h
  rw [hb, Outcome.ok.injEq] at hb'
  subst hb'
  obtain ⟨hinv, hnames, -⟩ := node_pass_inverse hb
  have hbound : ∀ n i, b.inverse.get n = some i → i < b.petgraph.nodes.length := fun n i hi => by
    simpa [← hnames] using hinv.lt hi
  obtain ⟨-, hd, hg⟩ := (edge_pass_ok hbound).1 hpg
  exact ⟨hg, hd⟩

/-- An edge joins the nodes of two names exactly when the first depends on the second. -/
theorem mem_pairs_from_state
    (h : from_state ext selection pins packages distributions state preferences editables = ok g)
    (hb : node_pass ext pins packages distributions preferences editables selection.entries = ok b)
    (i j : NodeIndex) :
    (i, j) ∈ g.petgraph.pairs ↔ ∃ n m r, DependsOn state selection.entries n m r ∧
      b.inverse.get n = some i ∧ b.inverse.get m = some j := by
  rw [(from_state_petgraph h hb).1, Graph.mem_pairs_set_edges]
  simp only [Graph.pairs, (node_pass_inverse hb).2.2, List.map_nil, List.not_mem_nil, false_or,
    List.mem_filterMap, dependency_edge_eq_some, Prod.exists, mem_dependencies]
  constructor
  · rintro ⟨w, n, m, r, hd, hn, hm, rfl⟩; exact ⟨n, m, r, hd, hn, hm⟩
  · rintro ⟨n, m, r, hd, hn, hm⟩; exact ⟨r, n, m, r, hd, hn, hm, rfl⟩

theorem not_mem_pairs_self
    (h : from_state ext selection pins packages distributions state preferences editables = ok g)
    (hb : node_pass ext pins packages distributions preferences editables selection.entries = ok b)
    (i : NodeIndex) : (i, i) ∉ g.petgraph.pairs := by
  rw [mem_pairs_from_state h hb]
  rintro ⟨n, m, r, ⟨-, -, -, -, -, -, -, -, -, -, -, -, hnm, -⟩, hn, hm⟩
  exact hnm ((node_pass_inverse hb).1.inj hn hm)

theorem nodup_pairs_from_state
    (h : from_state ext selection pins packages distributions state preferences editables = ok g)
    (hb : node_pass ext pins packages distributions preferences editables selection.entries = ok b) :
    g.petgraph.pairs.Nodup := by
  rw [(from_state_petgraph h hb).1]
  exact Graph.nodup_pairs_set_edges _ (by simp [Graph.pairs, (node_pass_inverse hb).2.2])

/-- An edge is labelled by the range of the last dependency visited for its two nodes. -/
theorem weight_from_state
    (h : from_state ext selection pins packages distributions state preferences editables = ok g)
    (hb : node_pass ext pins packages distributions preferences editables selection.entries = ok b)
    {e : Edge (Range V)} (he : e ∈ g.petgraph.edges) :
    Graph.last_weight ((dependencies state selection.entries).filterMap (dependency_edge b.inverse))
      e.source e.target = some e.weight := by
  rw [(from_state_petgraph h hb).1] at he
  exact Graph.weight_set_edges _ (node_pass_inverse hb).2.2 he

/-- The names that the edges join are those of the dependencies. -/
theorem mem_edge_names
    (h : from_state ext selection pins packages distributions state preferences editables = ok g)
    {n m : PackageName} :
    (n, m) ∈ g.edge_names ↔ ∃ r, DependsOn state selection.entries n m r := by
  obtain ⟨b, hb, -, hnodes, -⟩ := from_state_ok h
  simp only [ResolutionGraph.edge_names, List.mem_filterMap, hnodes]
  constructor
  · rintro ⟨⟨i, j⟩, hij, hnm⟩
    obtain ⟨n', m', r, hd, hn, hm⟩ := (mem_pairs_from_state h hb i j).1 hij
    obtain ⟨a, ha, rfl⟩ := node_pass_node hb hn
    obtain ⟨c, hc, rfl⟩ := node_pass_node hb hm
    simp only [ha, hc, Option.some_bind, Option.some.injEq, Prod.mk.injEq] at hnm
    obtain ⟨rfl, rfl⟩ := hnm
    exact ⟨r, hd⟩
  · rintro ⟨r, hd⟩
    obtain ⟨hn, hm⟩ := dependency_edge_isSome.1
      ((from_state_petgraph h hb).2 _ (mem_dependencies.2 hd))
    obtain ⟨i, hi⟩ := Option.isSome_iff_exists.1 hn
    obtain ⟨j, hj⟩ := Option.isSome_iff_exists.1 hm
    obtain ⟨a, ha, rfl⟩ := node_pass_node hb hi
    obtain ⟨c, hc, rfl⟩ := node_pass_node hb hj
    exact ⟨(i, j), (mem_pairs_from_state h hb i j).2 ⟨_, _, r, hd, hi, hj⟩, by simp [ha, hc]⟩

/-- An edge joins the node of one name to the node of another exactly when the first
depends on the second; no edge joins a node to itself and no two join the same nodes; an
edge is labelled by the range of the last dependency visited for its nodes; so the names
that the edges join are the same for every order of the selection and of its lists of
incompatibilities; and `lock` gives each node one dependency for each out-neighbour, and
none on itself. -/
theorem from_state_edges
    (h : from_state ext selection pins packages distributions state preferences editables = ok g)
    (hb : node_pass ext pins packages distributions preferences editables selection.entries = ok b) :
    (∀ i j, (i, j) ∈ g.petgraph.pairs ↔ ∃ n m r, DependsOn state selection.entries n m r ∧
      b.inverse.get n = some i ∧ b.inverse.get m = some j) ∧
    (∀ i, (i, i) ∉ g.petgraph.pairs) ∧ g.petgraph.pairs.Nodup ∧
    (∀ e ∈ g.petgraph.edges, Graph.last_weight
      ((dependencies state selection.entries).filterMap (dependency_edge b.inverse))
      e.source e.target = some e.weight) ∧
    (∀ (ext' : Externals) (selection' : SelectedDependencies V) (pins' : FilePins V)
      (packages' : PackageName → Option (VersionsResponse V))
      (distributions' : VersionId V → Option MetadataResponse) (state' : State V)
      (preferences' : Preferences V) (editables' : Editables) (g' : ResolutionGraph V),
      selection.entries.Perm selection'.entries →
      state.incompatibility_store = state'.incompatibility_store →
      (∀ p, ((state.incompatibilities.get p).getD []).Perm
        ((state'.incompatibilities.get p).getD [])) →
      from_state ext' selection' pins' packages' distributions' state' preferences' editables' =
        ok g' →
      ∀ n m, (n, m) ∈ g.edge_names ↔ (n, m) ∈ g'.edge_names) ∧
    ∀ {ε D L : Type} (api : LockApi V ε D L) (lock : L), g.lock api = ok lock →
      ∃ dists, api.new dists = .ok lock ∧
        List.Forall₂ (fun i d => ∃ dist d₀ deps, g.petgraph.nodes[i]? = some dist ∧
            api.from_resolved_dist dist = .ok d₀ ∧
            List.Forall₂ (fun j dep => g.petgraph.nodes[j]? = some dep)
              (g.petgraph.neighbors i) deps ∧
            d = deps.foldl api.add_dependency d₀ ∧
            (g.petgraph.neighbors i).Nodup ∧ i ∉ g.petgraph.neighbors i ∧
            ∀ j, j ∈ g.petgraph.neighbors i ↔ (i, j) ∈ g.petgraph.pairs)
          (List.range g.petgraph.nodes.length) dists := by
  refine ⟨mem_pairs_from_state h hb, not_mem_pairs_self h hb, nodup_pairs_from_state h hb,
    fun e he => weight_from_state h hb he, fun _ _ _ _ _ _ _ _ _ hsel hstore hinc h' n m => ?_,
    fun api lock hl => ?_⟩
  · rw [mem_edge_names h, mem_edge_names h']
    exact exists_congr fun _ => dependsOn_perm hsel hstore hinc
  · obtain ⟨dists, hnew, hd⟩ := lock_ok hl
    refine ⟨dists, hnew, hd.imp fun i d ⟨dist, d₀, deps, h1, h2, h3, h4⟩ =>
      ⟨dist, d₀, deps, h1, h2, h3, h4, Graph.nodup_neighbors (nodup_pairs_from_state h hb) i,
        fun hi => not_mem_pairs_self h hb i ((Graph.mem_neighbors _ _ _).1 hi),
        fun j => Graph.mem_neighbors _ _ _⟩⟩

theorem from_state_edges_sample : ∃ (g : ResolutionGraph Nat) (b : Builder Nat),
    from_state sample_externals sample_selection sample_pins sample_packages sample_distributions
      sample_state sample_preferences .empty = ok g ∧
    node_pass sample_externals sample_pins sample_packages sample_distributions sample_preferences
      .empty sample_selection.entries = ok b ∧
    (∀ i j, (i, j) ∈ g.petgraph.pairs ↔ ∃ n m r, DependsOn sample_state sample_selection.entries n m r ∧
      b.inverse.get n = some i ∧ b.inverse.get m = some j) ∧
    (∀ i, (i, i) ∉ g.petgraph.pairs) ∧ g.petgraph.pairs.Nodup ∧
    (∀ e ∈ g.petgraph.edges, Graph.last_weight
      ((dependencies sample_state sample_selection.entries).filterMap (dependency_edge b.inverse))
      e.source e.target = some e.weight) ∧
    (∀ (ext' : Externals) (selection' : SelectedDependencies Nat) (pins' : FilePins Nat)
      (packages' : PackageName → Option (VersionsResponse Nat))
      (distributions' : VersionId Nat → Option MetadataResponse) (state' : State Nat)
      (preferences' : Preferences Nat) (editables' : Editables) (g' : ResolutionGraph Nat),
      sample_selection.entries.Perm selection'.entries →
      sample_state.incompatibility_store = state'.incompatibility_store →
      (∀ p, ((sample_state.incompatibilities.get p).getD []).Perm
        ((state'.incompatibilities.get p).getD [])) →
      from_state ext' selection' pins' packages' distributions' state' preferences' editables' =
        ok g' →
      ∀ n m, (n, m) ∈ g.edge_names ↔ (n, m) ∈ g'.edge_names) ∧
    ∀ {ε D L : Type} (api : LockApi Nat ε D L) (lock : L), g.lock api = ok lock →
      ∃ dists, api.new dists = .ok lock ∧
        List.Forall₂ (fun i d => ∃ dist d₀ deps, g.petgraph.nodes[i]? = some dist ∧
            api.from_resolved_dist dist = .ok d₀ ∧
            List.Forall₂ (fun j dep => g.petgraph.nodes[j]? = some dep)
              (g.petgraph.neighbors i) deps ∧
            d = deps.foldl api.add_dependency d₀ ∧
            (g.petgraph.neighbors i).Nodup ∧ i ∉ g.petgraph.neighbors i ∧
            ∀ j, j ∈ g.petgraph.neighbors i ↔ (i, j) ∈ g.petgraph.pairs)
          (List.range g.petgraph.nodes.length) dists :=
  ⟨_, _, rfl, rfl, from_state_edges (rfl : from_state sample_externals sample_selection sample_pins
    sample_packages sample_distributions sample_state sample_preferences .empty = _) rfl⟩

/-- When each dependency of a selected package that applies at its version is selected at a
version in the dependency's range, each extra's group has its base package at its version,
and no name has two base entries, each edge's range holds the version of the base entry
whose node the edge enters; this holds also where several incompatibilities wrote one
edge and `update_edge` kept the last label. -/
theorem from_state_edge_ranges
    (hdeps : ∀ p v, (p, v) ∈ selection.entries → ∀ id ∈ (state.incompatibilities.get p).getD [],
      ∀ S d R, (state.incompatibility_store id).kind = .FromDependencyOf p S d R →
        S.contains v = true → ∃ w, (d, w) ∈ selection.entries ∧ R.contains w = true)
    (hbase : ∀ n e u v, (PubGrubPackage.Package n (some e) u, v) ∈ selection.entries →
      (PubGrubPackage.Package n none u, v) ∈ selection.entries)
    (hunique : ((base_entries selection.entries).map Prod.fst).Nodup)
    (h : from_state ext selection pins packages distributions state preferences editables = ok g) :
    ∀ e ∈ g.petgraph.edges, ∃ x, (base_entries selection.entries)[e.target]? = some x ∧
      e.weight.contains x.2.2 = true := by
  intro e he
  obtain ⟨b, hb, -⟩ := from_state_ok h
  obtain ⟨⟨n, m, r⟩, hd, hde⟩ :=
    List.mem_filterMap.1 (Graph.mem_of_last_weight (weight_from_state h hb he))
  obtain ⟨-, hm, rfl⟩ := dependency_edge_eq_some.1 hde
  obtain ⟨p, v, hp, id, hid, S, -, -, y, z, hk, -, -, hS⟩ := mem_dependencies.1 hd
  obtain ⟨w, hw, hr⟩ := hdeps p v hp id hid S _ _ hk hS
  have hmw : (m, z, w) ∈ base_entries selection.entries := by
    refine mem_base_entries.2 ?_
    cases y with
    | none => exact hw
    | some y => exact hbase _ _ _ _ hw
  obtain ⟨k, hk⟩ := List.mem_iff_getElem?.1 hmw
  have hkm : b.inverse.get m = some k :=
    (node_pass_inverse hb).1.get_of_getElem? hunique (by rw [List.getElem?_map, hk]; rfl)
  obtain rfl : k = e.target := Option.some.inj (hkm.symm.trans hm)
  exact ⟨_, hk, hr⟩

theorem from_state_edge_ranges_sample : ∃ g : ResolutionGraph Nat,
    (∀ p v, (p, v) ∈ sample_selection.entries → ∀ id ∈ (sample_state.incompatibilities.get p).getD [],
      ∀ S d R, (sample_state.incompatibility_store id).kind = .FromDependencyOf p S d R →
        S.contains v = true → ∃ w, (d, w) ∈ sample_selection.entries ∧ R.contains w = true) ∧
    (∀ n e u v, (PubGrubPackage.Package n (some e) u, v) ∈ sample_selection.entries →
      (PubGrubPackage.Package n none u, v) ∈ sample_selection.entries) ∧
    ((base_entries sample_selection.entries).map Prod.fst).Nodup ∧
    from_state sample_externals sample_selection sample_pins sample_packages sample_distributions
      sample_state sample_preferences .empty = ok g ∧
    ∀ e ∈ g.petgraph.edges, ∃ x, (base_entries sample_selection.entries)[e.target]? = some x ∧
      e.weight.contains x.2.2 = true := by
  have hdeps : ∀ p v, (p, v) ∈ sample_selection.entries →
      ∀ id ∈ (sample_state.incompatibilities.get p).getD [],
      ∀ S d R, (sample_state.incompatibility_store id).kind = .FromDependencyOf p S d R →
        S.contains v = true → ∃ w, (d, w) ∈ sample_selection.entries ∧ R.contains w = true :=
    fun p v _ id _ S d R hk _ => sample_dependencies_selected p id S d R hk
  have hbase : ∀ n e u v, (PubGrubPackage.Package n (some e) u, v) ∈ sample_selection.entries →
      (PubGrubPackage.Package n none u, v) ∈ sample_selection.entries := sample_extra_base
  exact ⟨_, hdeps, hbase, by decide, rfl, from_state_edge_ranges hdeps hbase (by decide)
    (rfl : from_state sample_externals sample_selection sample_pins sample_packages
      sample_distributions sample_state sample_preferences .empty = _)⟩

/-- Under the resolver's postconditions `from_state` does not panic: every registry
package that is not editable is pinned, every extra's group has its base package at its
version, the metadata of every extra that is not editable is found, every selected
package has incompatibilities, and every dependency that applies at a selected version
is selected. It then returns an error only where `Dist::from_editable` fails for an
editable package, or `Dist::from_url` for the precise URL of another. -/
theorem from_state_no_panic
    (hpins : ∀ n v, (PubGrubPackage.Package n none none, v) ∈ selection.entries →
      editables.get n = none → (pins.get n v).isSome)
    (hbase : ∀ n e u v, (PubGrubPackage.Package n (some e) u, v) ∈ selection.entries →
      (PubGrubPackage.Package n none u, v) ∈ selection.entries)
    (hmeta : ∀ n e u v, (PubGrubPackage.Package n (some e) u, v) ∈ selection.entries →
      editables.get n = none →
        ∃ archive, distributions (extra_dist n u v).version_id = some (.Found archive))
    (hincompat : ∀ p v, (p, v) ∈ selection.entries → (state.incompatibilities.get p).isSome)
    (hdeps : ∀ p v, (p, v) ∈ selection.entries → ∀ id ∈ (state.incompatibilities.get p).getD [],
      ∀ S d R, (state.incompatibility_store id).kind = .FromDependencyOf p S d R →
        S.contains v = true → ∃ w, (d, w) ∈ selection.entries) :
    NoPanic (from_state ext selection pins packages distributions state preferences editables) ∧
    ∀ err, from_state ext selection pins packages distributions state preferences editables =
      .err err → ∃ p v, (p, v) ∈ selection.entries ∧ ∃ n x u, p = .Package n x u ∧
        ((∃ editable rest er, editables.get n = some (editable, rest) ∧
            (Dist.from_editable ext n editable : Except ParsedUrlError (ResolvedDist V)) =
              .error er ∧ err = .ParsedUrl er) ∨
          ∃ url er, u = some url ∧ editables.get n = none ∧
            (Dist.from_url ext n (precise_url ext url) : Except ParsedUrlError (ResolvedDist V)) =
              .error er ∧ err = .ParsedUrl er) := by
  have hbase' : ∀ n x u v, (PubGrubPackage.Package n x u, v) ∈ selection.entries →
      (PubGrubPackage.Package n none u, v) ∈ selection.entries := fun n x u v hx => by
    cases x with
    | none => exact hx
    | some x => exact hbase _ _ _ _ hx
  have hnode : NoPanic (node_pass ext pins packages distributions preferences editables
      selection.entries) := by
    refine noPanic_foldlM _ _ _ fun _ e he => noPanic_bind ?_ fun _ _ => noPanic_ok _
    refine package_action_noPanic ext pins packages distributions preferences editables
      (fun n x hx hn => hpins n e.2 (hbase' n x none e.2 (hx ▸ he)) hn)
      (fun n x u hx => hmeta n x u e.2 (hx ▸ he))
  refine ⟨noPanic_bind hnode fun b hb => ?_, fun err h => ?_⟩
  · obtain ⟨hinv, hnames, -⟩ := node_pass_inverse hb
    have hknown : ∀ n x u v, (PubGrubPackage.Package n x u, v) ∈ selection.entries →
        (b.inverse.get n).isSome := fun n x u v hx =>
      hinv.2 n (List.mem_map.2 ⟨(n, u, v), mem_base_entries.2 (hbase' n x u v hx), rfl⟩)
    have hbound : ∀ n i, b.inverse.get n = some i → i < b.petgraph.nodes.length :=
      fun n i hi => by simpa [← hnames] using hinv.lt hi
    have hpass : edge_pass state b.inverse selection.entries b.petgraph = ok _ :=
      (edge_pass_ok hbound).2 ⟨fun e he => hincompat e.1 e.2 he, fun ⟨n, m, r⟩ hd => ?_, rfl⟩
    · rw [hpass, ok_bind]
      exact noPanic_ok _
    · obtain ⟨p, v, hp, id, hid, S, x, u, y, w, hk, rfl, -, hS⟩ := mem_dependencies.1 hd
      obtain ⟨v', hv'⟩ := hdeps _ v hp id hid S _ r hk hS
      exact dependency_edge_isSome.2 ⟨hknown n x u v hp, hknown m y w v' hv'⟩
  · simp only [from_state, bind_eq_err] at h
    rcases h with h | ⟨b, -, h | ⟨_, -, h⟩⟩
    · obtain ⟨_, e, he, h⟩ := foldlM_err _ _ _ _ h
      rcases bind_eq_err.1 h with h | ⟨_, -, h⟩
      · obtain ⟨n, x, u, hx, h⟩ := package_action_err ext pins packages distributions
          preferences editables h
        exact ⟨e.1, e.2, he, n, x, u, hx, h⟩
      · cases h
    · exact absurd h (edge_pass_ne_err _ _ _)
    · cases h

theorem from_state_no_panic_sample :
    (∀ n v, (PubGrubPackage.Package n none none, v) ∈ sample_selection.entries →
      (FxHashMap.empty : Editables).get n = none → (sample_pins.get n v).isSome) ∧
    (∀ n e u v, (PubGrubPackage.Package n (some e) u, v) ∈ sample_selection.entries →
      (PubGrubPackage.Package n none u, v) ∈ sample_selection.entries) ∧
    (∀ n e u v, (PubGrubPackage.Package n (some e) u, v) ∈ sample_selection.entries →
      (FxHashMap.empty : Editables).get n = none →
        ∃ archive, sample_distributions (extra_dist n u v).version_id = some (.Found archive)) ∧
    (∀ p v, (p, v) ∈ sample_selection.entries → (sample_state.incompatibilities.get p).isSome) ∧
    (∀ p v, (p, v) ∈ sample_selection.entries →
      ∀ id ∈ (sample_state.incompatibilities.get p).getD [],
      ∀ S d R, (sample_state.incompatibility_store id).kind = .FromDependencyOf p S d R →
        S.contains v = true → ∃ w, (d, w) ∈ sample_selection.entries) ∧
    NoPanic (from_state sample_externals sample_selection sample_pins sample_packages
      sample_distributions sample_state sample_preferences .empty) ∧
    ∀ err, from_state sample_externals sample_selection sample_pins sample_packages
      sample_distributions sample_state sample_preferences .empty = .err err →
      ∃ p v, (p, v) ∈ sample_selection.entries ∧ ∃ n x u, p = .Package n x u ∧
        ((∃ editable rest er, (FxHashMap.empty : Editables).get n = some (editable, rest) ∧
            (Dist.from_editable sample_externals n editable :
              Except ParsedUrlError (ResolvedDist Nat)) = .error er ∧ err = .ParsedUrl er) ∨
          ∃ url er, u = some url ∧ (FxHashMap.empty : Editables).get n = none ∧
            (Dist.from_url sample_externals n (precise_url sample_externals url) :
              Except ParsedUrlError (ResolvedDist Nat)) = .error er ∧ err = .ParsedUrl er) := by
  have hpins : ∀ n v, (PubGrubPackage.Package n none none, v) ∈ sample_selection.entries →
      (FxHashMap.empty : Editables).get n = none → (sample_pins.get n v).isSome :=
    fun _ _ _ _ => rfl
  have hbase : ∀ n e u v, (PubGrubPackage.Package n (some e) u, v) ∈ sample_selection.entries →
      (PubGrubPackage.Package n none u, v) ∈ sample_selection.entries := sample_extra_base
  have hmeta : ∀ n e u v, (PubGrubPackage.Package n (some e) u, v) ∈ sample_selection.entries →
      (FxHashMap.empty : Editables).get n = none →
        ∃ archive, sample_distributions (extra_dist n u v).version_id = some (.Found archive) := by
    intro n e u v h _
    simp [sample_selection] at h
    obtain ⟨⟨rfl, -, rfl⟩, rfl⟩ := h
    exact ⟨_, rfl⟩
  have hincompat : ∀ p v, (p, v) ∈ sample_selection.entries →
      (sample_state.incompatibilities.get p).isSome := by
    have : ∀ e ∈ sample_selection.entries, (sample_state.incompatibilities.get e.1).isSome := by
      decide
    exact fun p v h => this (p, v) h
  have hdeps : ∀ p v, (p, v) ∈ sample_selection.entries →
      ∀ id ∈ (sample_state.incompatibilities.get p).getD [],
      ∀ S d R, (sample_state.incompatibility_store id).kind = .FromDependencyOf p S d R →
        S.contains v = true → ∃ w, (d, w) ∈ sample_selection.entries :=
    fun p v _ id _ S d R hk _ => (sample_dependencies_selected p id S d R hk).imp fun _ h => h.1
  exact ⟨hpins, hbase, hmeta, hincompat, hdeps, from_state_no_panic hpins hbase hmeta hincompat hdeps⟩

end Graph

end uv_resolver.resolution
