-- `ResolutionGraph::from_state` (resolution.rs, lines 70 to 320). The first pass over the
-- selection adds a node for each base package and records hashes, extras and
-- diagnostics; the second walks each package's incompatibilities and adds an edge for
-- each dependency that applies to the selected version.
import UvResolution.Types

namespace uv_resolver.resolution

open uv_resolver Outcome

variable {V : Type}

/-- A complete resolution: a graph of pinned packages, with the hashes and enabled extras
of each name, the editables and the diagnostics. -/
structure ResolutionGraph (V : Type) where
  petgraph : Graph (ResolvedDist V) (Range V)
  hashes : FxHashMap PackageName (List HashDigest)
  extras : FxHashMap PackageName (List ExtraName)
  editables : Editables
  diagnostics : List (Diagnostic V)

def ResolutionGraph.len (g : ResolutionGraph V) : Nat := g.petgraph.nodes.length

def ResolutionGraph.contains (g : ResolutionGraph V) (name : PackageName) : Bool :=
  g.petgraph.nodes.any fun dist => dist.name = name

/-! ## The node pass -/

/-- What the node pass has built so far. -/
structure Builder (V : Type) where
  petgraph : Graph (ResolvedDist V) (Range V)
  hashes : FxHashMap PackageName (List HashDigest)
  extras : FxHashMap PackageName (List ExtraName)
  diagnostics : List (Diagnostic V)
  inverse : FxHashMap PackageName NodeIndex

def Builder.empty : Builder V := ⟨.empty, .empty, .empty, [], .empty⟩

/-- What one entry of the selection does to the graph: add a node with its hashes, enable
an extra, or report a missing extra. -/
inductive NodeAction (V : Type) where
  | AddNode (name : PackageName) (dist : ResolvedDist V) (digests : Option (List HashDigest))
  | AddExtra (name : PackageName) (extra : ExtraName)
  | AddDiagnostic (diagnostic : Diagnostic V)
  | Skip

def Builder.apply (b : Builder V) : NodeAction V → Builder V
  | .AddNode name dist digests =>
    let (petgraph, index) := b.petgraph.add_node dist
    { b with
      petgraph
      hashes := match digests with
        | some digests => b.hashes.insert name digests
        | none => b.hashes
      inverse := b.inverse.insert name index }
  | .AddExtra name extra => { b with extras := b.extras.push name extra }
  | .AddDiagnostic diagnostic => { b with diagnostics := b.diagnostics ++ [diagnostic] }
  | .Skip => b

/-- `to_precise(url).map_or_else(|| url.clone(), |precise| apply_redirect(url, precise))`. -/
def precise_url (ext : Externals) (url : VerbatimUrl) : VerbatimUrl :=
  match ext.to_precise url with
  | none => url
  | some precise => ext.apply_redirect url precise

/-- The hashes recorded for a base package: the lockfile's, when it has some, and
otherwise `fallback`. -/
def preferred_digests (preferences : Preferences V) (name : PackageName) (version : V)
    (fallback : Option (List HashDigest)) : Option (List HashDigest) :=
  match (preferences.match_hashes name version).filter fun digests => !digests.isEmpty with
  | some digests => some digests
  | none => fallback

/-- The sorted hashes of the first version map that lists hashes for the version. -/
def registry_digests (packages : PackageName → Option (VersionsResponse V))
    (name : PackageName) (version : V) : Option (List HashDigest) :=
  match packages name with
  | some (.Found version_maps) =>
    (version_maps.findSome? fun version_map => version_map.hashes version).map sort_digests
  | _ => none

/-- The sorted hashes of the archive that the index holds for a distribution. -/
def url_digests (distributions : VersionId V → Option MetadataResponse)
    (pinned_package : ResolvedDist V) : Option (List HashDigest) :=
  match distributions pinned_package.version_id with
  | some (.Found archive) => some (sort_digests archive.hashes)
  | _ => none

/-- The distribution of `Package(name, None, None)`. -/
def registry_dist (ext : Externals) (pins : FilePins V) (editables : Editables)
    (name : PackageName) (version : V) : Outcome ResolveError (ResolvedDist V) :=
  match editables.get name with
  | some (editable, _, _) => lift .ParsedUrl (Dist.from_editable ext name editable)
  | none =>
    match pins.get name version with
    | some dist => ok dist
    | none => panic "Every package should be pinned"

/-- The distribution of `Package(name, None, Some(url))`. -/
def url_dist (ext : Externals) (editables : Editables) (name : PackageName)
    (url : VerbatimUrl) : Outcome ResolveError (ResolvedDist V) :=
  match editables.get name with
  | some (editable, _, _) => lift .ParsedUrl (Dist.from_editable ext name editable)
  | none => lift .ParsedUrl (Dist.from_url ext name (precise_url ext url))

/-- The two arms for an extra (lines 158 to 264): enable the extra when the metadata of
the package declares it, and report it missing otherwise. `dist` is where a non-editable
package's metadata is read from, and `missing` the distribution the report names. -/
def extra_action (ext : Externals) (distributions : VersionId V → Option MetadataResponse)
    (editables : Editables) (name : PackageName) (extra : ExtraName)
    (dist : PubGrubDistribution V) (missing : Outcome ResolveError (ResolvedDist V)) :
    Outcome ResolveError (NodeAction V) :=
  match editables.get name with
  | some (editable, metadata, _) =>
    if extra ∈ metadata.provides_extras then ok (.AddExtra name extra)
    else do
      let pinned_package ← lift .ParsedUrl (Dist.from_editable ext name editable)
      ok (.AddDiagnostic (.MissingExtra pinned_package extra))
  | none => do
    let response ← match distributions dist.version_id with
      | some response => ok response
      | none => panic "Every package should have metadata: "
    let archive ← match response with
      | .Found archive => ok archive
      | _ => panic "Every package should have metadata: "
    if extra ∈ archive.metadata.provides_extras then ok (.AddExtra name extra)
    else do
      let pinned_package ← missing
      ok (.AddDiagnostic (.MissingExtra pinned_package extra))

section Passes

variable (ext : Externals) (pins : FilePins V)
  (packages : PackageName → Option (VersionsResponse V))
  (distributions : VersionId V → Option MetadataResponse) (preferences : Preferences V)
  (editables : Editables)

/-- The body of the node pass for one entry of the selection, by the four arms of its
`match`. -/
def package_action : PubGrubPackage × V → Outcome ResolveError (NodeAction V)
  | (.Package name none none, version) => do
    let pinned_package ← registry_dist ext pins editables name version
    ok (.AddNode name pinned_package
      (preferred_digests preferences name version (registry_digests packages name version)))
  | (.Package name none (some url), version) => do
    let pinned_package ← url_dist ext editables name url
    ok (.AddNode name pinned_package
      (preferred_digests preferences name version (url_digests distributions pinned_package)))
  | (.Package name (some extra) none, version) =>
    extra_action ext distributions editables name extra (.from_registry name version)
      (match pins.get name version with
        | some dist => ok dist
        | none => panic ("Every package should be pinned: " ++ name))
  | (.Package name (some extra) (some url), _) =>
    extra_action ext distributions editables name extra (.from_url name url)
      (lift .ParsedUrl (Dist.from_url ext name (precise_url ext url)))
  | _ => ok .Skip

/-- The loop that adds every package to the graph. -/
def node_pass (entries : List (PubGrubPackage × V)) : Outcome ResolveError (Builder V) :=
  entries.foldlM (fun b entry => do
    let action ← package_action ext pins packages distributions preferences editables entry
    ok (b.apply action)) .empty

end Passes

/-! ## The edge pass -/

section Edges

variable [LinearOrder V]

/-- The checks of the inner loop's body (lines 272 to 296), for one incompatibility listed
under `package`, selected at `version`: the names of a dependency of `package` on another
package, and its range, when it applies to `version`. -/
def dependency_of (package : PubGrubPackage) (version : V) :
    Kind V → Option (PackageName × PackageName × Range V)
  | .FromDependencyOf self_package self_version dependency_package dependency_range =>
    if package ≠ self_package then none
    else
      match self_package, dependency_package with
      | .Package self_name _ _, .Package dependency_name _ _ =>
        if self_name = dependency_name then none
        else if self_version.contains version then
          some (self_name, dependency_name, dependency_range)
        else none
      | _, _ => none
  | _ => none

/-- The body of the inner loop: the edge of the dependency, between the nodes that the
inverse map gives (lines 297 to 305). -/
def incompatibility_edge (inverse : FxHashMap PackageName NodeIndex) (package : PubGrubPackage)
    (version : V) (petgraph : Graph (ResolvedDist V) (Range V)) (kind : Kind V) :
    Outcome ResolveError (Graph (ResolvedDist V) (Range V)) :=
  match dependency_of package version kind with
  | some (self_name, dependency_name, dependency_range) => do
    let self_index ← inverse.index self_name
    let dependency_index ← inverse.index dependency_name
    petgraph.update_edge self_index dependency_index dependency_range
  | none => ok petgraph

/-- The inner loop, over the incompatibilities of one selected package. -/
def package_edges (state : State V) (inverse : FxHashMap PackageName NodeIndex)
    (package : PubGrubPackage) (version : V) (petgraph : Graph (ResolvedDist V) (Range V)) :
    Outcome ResolveError (Graph (ResolvedDist V) (Range V)) := do
  let ids ← state.incompatibilities.index package
  ids.foldlM (fun petgraph id => incompatibility_edge inverse package version petgraph
    (state.incompatibility_store id).kind) petgraph

/-- The loop that adds every edge to the graph. -/
def edge_pass (state : State V) (inverse : FxHashMap PackageName NodeIndex)
    (entries : List (PubGrubPackage × V)) (petgraph : Graph (ResolvedDist V) (Range V)) :
    Outcome ResolveError (Graph (ResolvedDist V) (Range V)) :=
  entries.foldlM (fun petgraph entry => package_edges state inverse entry.1 entry.2 petgraph)
    petgraph

/-- `ResolutionGraph::from_state`. -/
def from_state (ext : Externals) (selection : SelectedDependencies V) (pins : FilePins V)
    (packages : PackageName → Option (VersionsResponse V))
    (distributions : VersionId V → Option MetadataResponse) (state : State V)
    (preferences : Preferences V) (editables : Editables) :
    Outcome ResolveError (ResolutionGraph V) := do
  let b ← node_pass ext pins packages distributions preferences editables selection.entries
  let petgraph ← edge_pass state b.inverse selection.entries b.petgraph
  ok { petgraph, hashes := b.hashes, extras := b.extras, editables,
       diagnostics := b.diagnostics }

theorem incompatibility_edge_nodes {inverse : FxHashMap PackageName NodeIndex}
    {package : PubGrubPackage} {version : V} {kind : Kind V}
    {g g' : Graph (ResolvedDist V) (Range V)}
    (h : incompatibility_edge inverse package version g kind = ok g') : g'.nodes = g.nodes := by
  unfold incompatibility_edge at h
  split at h
  · simp only [bind_eq_ok] at h
    obtain ⟨_, -, _, -, h⟩ := h
    rw [(Graph.update_edge_ok h).2, Graph.set_edge_nodes]
  · cases h; rfl

theorem package_edges_nodes {state : State V} {inverse : FxHashMap PackageName NodeIndex}
    {package : PubGrubPackage} {version : V} {g g' : Graph (ResolvedDist V) (Range V)}
    (h : package_edges state inverse package version g = ok g') : g'.nodes = g.nodes := by
  simp only [package_edges, bind_eq_ok] at h
  obtain ⟨ids, -, h⟩ := h
  exact foldlM_invariant _ (fun g' => g'.nodes = g.nodes) ids
    (fun _ _ _ _ hb hp => (incompatibility_edge_nodes hb).trans hp) rfl h

/-- The edge pass adds no node. -/
theorem edge_pass_nodes {state : State V} {inverse : FxHashMap PackageName NodeIndex}
    {entries : List (PubGrubPackage × V)} {g g' : Graph (ResolvedDist V) (Range V)}
    (h : edge_pass state inverse entries g = ok g') : g'.nodes = g.nodes :=
  foldlM_invariant _ (fun g' => g'.nodes = g.nodes) entries
    (fun _ _ _ _ hb hp => (package_edges_nodes hb).trans hp) rfl h

variable {ext : Externals} {selection : SelectedDependencies V} {pins : FilePins V}
  {packages : PackageName → Option (VersionsResponse V)}
  {distributions : VersionId V → Option MetadataResponse} {state : State V}
  {preferences : Preferences V} {editables : Editables}

/-- A graph that `from_state` returns is the node pass's, with the edges of the edge pass. -/
theorem from_state_ok {g : ResolutionGraph V}
    (h : from_state ext selection pins packages distributions state preferences editables = ok g) :
    ∃ b, node_pass ext pins packages distributions preferences editables selection.entries = ok b ∧
      edge_pass state b.inverse selection.entries b.petgraph = ok g.petgraph ∧
      g.petgraph.nodes = b.petgraph.nodes ∧ g.hashes = b.hashes ∧ g.extras = b.extras ∧
      g.diagnostics = b.diagnostics ∧ g.editables = editables := by
  simp only [from_state, bind_eq_ok] at h
  obtain ⟨b, hb, pg, hpg, h⟩ := h
  cases h
  exact ⟨b, hb, hpg, edge_pass_nodes hpg, rfl, rfl, rfl, rfl⟩

end Edges

/-! ## A small resolution

`flask` 2 with its extra `dotenv`, and `werkzeug` 3, which `flask` depends on from
version 2 where the Python version is at least 3.8; only `flask` publishes a hash. -/

def sample_externals : Externals :=
  ⟨fun _ => none, fun _ => none, fun _ => none, fun url _ => url,
    fun r => .ok ⟨r.name, r.extras, r.marker, r.origin⟩⟩

def sample_pins : FilePins Nat where
  get name version := some ⟨name, .Version version, none⟩
  get_pinned := by intro n v d h; cases h; exact ⟨rfl, rfl⟩

def sample_selection : SelectedDependencies Nat :=
  ⟨[(.Root none, 0), (.Package "flask" none none, 2), (.Package "flask" (some "dotenv") none, 2),
    (.Package "werkzeug" none none, 3)], by decide⟩

def sample_packages : PackageName → Option (VersionsResponse Nat)
  | "flask" => some (.Found [⟨fun v => if v = 2 then some [⟨.Sha256, "ab"⟩] else none⟩])
  | _ => none

def sample_distributions : VersionId Nat → Option MetadataResponse
  | .NameVersion "flask" 2 => some (.Found ⟨⟨"flask", [⟨"werkzeug", [], some (.VersionSpecifier ">=2"),
      some (.Expression ⟨.MarkerEnvVersion .PythonVersion, .GreaterEqual, .QuotedString "3.8"⟩),
      none⟩], ["dotenv"]⟩, []⟩)
  | .NameVersion "werkzeug" 3 => some (.Found ⟨⟨"werkzeug", [], []⟩, []⟩)
  | _ => none

def sample_state : State Nat where
  incompatibilities := ⟨[(.Root none, []), (.Package "flask" none none, [0]),
    (.Package "flask" (some "dotenv") none, []), (.Package "werkzeug" none none, [0])], by decide⟩
  incompatibility_store _ := ⟨.FromDependencyOf (.Package "flask" none none)
    ⟨[(.Unbounded, .Unbounded)]⟩ (.Package "werkzeug" none none) ⟨[(.Included 2, .Unbounded)]⟩⟩

def sample_preferences : Preferences Nat := ⟨fun _ _ => none⟩

theorem sample_extra_base (n : PackageName) (e : ExtraName) (u : Option VerbatimUrl) (v : Nat)
    (h : (PubGrubPackage.Package n (some e) u, v) ∈ sample_selection.entries) :
    (PubGrubPackage.Package n none u, v) ∈ sample_selection.entries := by
  simp [sample_selection] at h
  obtain ⟨⟨rfl, -, rfl⟩, rfl⟩ := h
  decide

/-- The one dependency of the sample is selected at a version in its range. -/
theorem sample_dependencies_selected (p : PubGrubPackage) (id : IncompId) (S : Range Nat)
    (d : PubGrubPackage) (R : Range Nat)
    (hk : (sample_state.incompatibility_store id).kind = .FromDependencyOf p S d R) :
    ∃ w, (d, w) ∈ sample_selection.entries ∧ R.contains w = true := by
  simp only [sample_state, Kind.FromDependencyOf.injEq] at hk
  obtain ⟨-, -, rfl, rfl⟩ := hk
  exact ⟨3, by decide, by decide⟩

end uv_resolver.resolution
