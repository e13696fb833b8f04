-- `ResolutionGraph::marker_tree` (resolution.rs, lines 380 to 508): the environment
-- parameters that the markers of the resolution's requirements mention, each pinned to
-- its value in the current environment. A marker reads only the parameters it mentions,
-- so every environment that satisfies the result evaluates those markers as this one does.
import UvResolution.EdgePass

namespace uv_resolver.resolution

open uv_resolver Outcome

variable {V : Type}

/-! ## Marker parameters -/

/-- `MarkerParam`: a marker value that the environment gives. -/
inductive MarkerParam where
  | Version (value : MarkerValueVersion)
  | String (value : MarkerValueString)
  deriving DecidableEq, Repr

/-- `add_marker_value`. -/
def add_marker_value (value : MarkerValue) (set : FxHashSet MarkerParam) : FxHashSet MarkerParam :=
  match value with
  | .MarkerEnvVersion value_version => set.insert (.Version value_version)
  | .MarkerEnvString value_string => set.insert (.String value_string)
  | .Extra | .QuotedString _ => set

mutual

/-- `add_marker_params_from_tree`. -/
def add_marker_params_from_tree : MarkerTree → FxHashSet MarkerParam → FxHashSet MarkerParam
  | .Expression expr, set => add_marker_value expr.r_value (add_marker_value expr.l_value set)
  | .And exprs, set => add_marker_params_from_trees exprs set
  | .Or exprs, set => add_marker_params_from_trees exprs set

/-- The loop `for expr in exprs` of `add_marker_params_from_tree`. -/
def add_marker_params_from_trees : List MarkerTree → FxHashSet MarkerParam → FxHashSet MarkerParam
  | [], set => set
  | expr :: exprs, set => add_marker_params_from_trees exprs (add_marker_params_from_tree expr set)

end

/-- The parameter that a marker value stands for, if it is one. -/
def marker_param : MarkerValue → Option MarkerParam
  | .MarkerEnvVersion value => some (.Version value)
  | .MarkerEnvString value => some (.String value)
  | .Extra | .QuotedString _ => none

/-- A parameter is an operand of an expression at some depth of a marker. -/
inductive ParamOccurs (p : MarkerParam) : MarkerTree → Prop
  | l_value {expr : MarkerExpression} : marker_param expr.l_value = some p → ParamOccurs p (.Expression expr)
  | r_value {expr : MarkerExpression} : marker_param expr.r_value = some p → ParamOccurs p (.Expression expr)
  | and {exprs : List MarkerTree} {t : MarkerTree} : t ∈ exprs → ParamOccurs p t →
      ParamOccurs p (.And exprs)
  | or {exprs : List MarkerTree} {t : MarkerTree} : t ∈ exprs → ParamOccurs p t →
      ParamOccurs p (.Or exprs)

theorem mem_add_marker_value (value : MarkerValue) (set : FxHashSet MarkerParam)
    (p : MarkerParam) :
    p ∈ (add_marker_value value set).elems ↔ marker_param value = some p ∨ p ∈ set.elems := by
  cases value <;> simp [add_marker_value, marker_param, eq_comm]

mutual

/-- The set after `add_marker_params_from_tree` holds the parameters that the marker
mentions, and no other new one. -/
theorem mem_add_marker_params_from_tree (p : MarkerParam) :
    ∀ (t : MarkerTree) (set : FxHashSet MarkerParam),
      p ∈ (add_marker_params_from_tree t set).elems ↔ ParamOccurs p t ∨ p ∈ set.elems
  | .Expression expr, set => by
    simp only [add_marker_params_from_tree, mem_add_marker_value]
    constructor
    · rintro (h | h | h)
      · exact .inl (.r_value h)
      · exact .inl (.l_value h)
      · exact .inr h
    · rintro ((h | h) | h)
      · exact .inr (.inl h)
      · exact .inl h
      · exact .inr (.inr h)
  | .And exprs, set => by
    rw [add_marker_params_from_tree, mem_add_marker_params_from_trees]
    constructor
    · rintro (⟨t, ht, h⟩ | h)
      · exact .inl (.and ht h)
      · exact .inr h
    · rintro (h | h)
      · cases h with
        | and ht h => exact .inl ⟨_, ht, h⟩
      · exact .inr h
  | .Or exprs, set => by
    rw [add_marker_params_from_tree, mem_add_marker_params_from_trees]
    constructor
    · rintro (⟨t, ht, h⟩ | h)
      · exact .inl (.or ht h)
      · exact .inr h
    · rintro (h | h)
      · cases h with
        | or ht h => exact .inl ⟨_, ht, h⟩
      · exact .inr h

theorem mem_add_marker_params_from_trees (p : MarkerParam) :
    ∀ (exprs : List MarkerTree) (set : FxHashSet MarkerParam),
      p ∈ (add_marker_params_from_trees exprs set).elems ↔
        (∃ t ∈ exprs, ParamOccurs p t) ∨ p ∈ set.elems
  | [], set => by rw [add_marker_params_from_trees]; simp
  | expr :: exprs, set => by
    rw [add_marker_params_from_trees, mem_add_marker_params_from_trees p exprs,
      mem_add_marker_params_from_tree p expr]
    simp only [List.mem_cons, exists_eq_or_imp, or_assoc]
    exact or_left_comm

end

/-! ## `marker_tree` -/

/-- `MarkerEnvironment`, by the text of the value it gives each parameter:
`get_version(..).to_string()` and `get_string(..)`. -/
structure MarkerEnvironment where
  get_version : MarkerValueVersion → String
  get_string : MarkerValueString → String

/-- The text that an environment gives a parameter. -/
def MarkerEnvironment.value (marker_env : MarkerEnvironment) : MarkerParam → String
  | .Version value_version => marker_env.get_version value_version
  | .String value_string => marker_env.get_string value_string

/-- `Manifest`, by what `marker_tree` reads: the direct requirements, the editables with
their metadata and dependencies, and `Manifest::apply`, which applies the manifest's
overrides and lives outside these sources. -/
structure Manifest where
  requirements : List Requirement
  editables : List (LocalEditable × Metadata23 × Requirements)
  apply : List Requirement → List Requirement

/-- The conjunct that pins a parameter to its value in the environment. -/
def marker_conjunct (marker_env : MarkerEnvironment) : MarkerParam → MarkerTree
  | .Version value_version => .Expression
    { l_value := .MarkerEnvVersion value_version, operator := .Equal,
      r_value := .QuotedString (marker_env.get_version value_version) }
  | .String value_string => .Expression
    { l_value := .MarkerEnvString value_string, operator := .Equal,
      r_value := .QuotedString (marker_env.get_string value_string) }

/-- The lookups of the loop over the nodes (lines 437 to 461): the requirements of the
node's metadata. -/
def node_requirements (ext : Externals) (distributions : VersionId V → Option MetadataResponse)
    (dist : ResolvedDist V) : Outcome ParsedUrlError (List Requirement) := do
  let version_id : VersionId V := match dist.version_or_url with
    | .Version version => .from_registry dist.name version
    | .Url verbatim_url => .from_url verbatim_url
  let res ← match distributions version_id with
    | some res => ok res
    | none => panic "every package in resolution graph has metadata"
  let archive ← match res with
    | .Found archive => ok archive
    | _ => panic "Every package should have metadata: "
  lift id (archive.metadata.requires_dist.mapM ext.from_pep508)

/-- The loop over requirements that adds the parameters of their markers. -/
def add_requirement_markers (seen_marker_values : FxHashSet MarkerParam)
    (requirements : List Requirement) : FxHashSet MarkerParam :=
  requirements.foldl (fun seen req =>
    match req.marker with
    | some marker_tree => add_marker_params_from_tree marker_tree seen
    | none => seen) seen_marker_values

/-- `ResolutionGraph::marker_tree`. -/
def marker_tree (ext : Externals) (g : ResolutionGraph V) (manifest : Manifest)
    (distributions : VersionId V → Option MetadataResponse) (marker_env : MarkerEnvironment) :
    Outcome ParsedUrlError MarkerTree := do
  let seen_marker_values ← g.petgraph.nodes.foldlM (fun seen dist => do
    let requirements ← node_requirements ext distributions dist
    ok (add_requirement_markers seen (manifest.apply requirements))) FxHashSet.empty
  let direct_reqs := manifest.requirements ++ manifest.editables.flatMap fun e => e.2.2.dependencies
  let seen_marker_values := add_requirement_markers seen_marker_values (manifest.apply direct_reqs)
  ok (.And (seen_marker_values.elems.map (marker_conjunct marker_env)))

/-! ## Evaluating markers -/

/-- Modelled from the spec: the text of a marker value in an environment that gives each
parameter the text `value` and `extra` the text `extra`. -/
def marker_value_text (value : MarkerParam → String) (extra : String) : MarkerValue → String
  | .MarkerEnvVersion value_version => value (.Version value_version)
  | .MarkerEnvString value_string => value (.String value_string)
  | .Extra => extra
  | .QuotedString s => s

section Evaluate

variable (value : MarkerParam → String) (extra : String)
  (cmp : MarkerOperator → String → String → Bool)

mutual

/-- Modelled from the spec: how a marker evaluates, `cmp` giving the meaning of each
operator on the texts of its two operands. -/
def evaluate_marker : MarkerTree → Bool
  | .Expression expr =>
    cmp expr.operator (marker_value_text value extra expr.l_value)
      (marker_value_text value extra expr.r_value)
  | .And exprs => evaluate_all exprs
  | .Or exprs => evaluate_any exprs

def evaluate_all : List MarkerTree → Bool
  | [] => true
  | expr :: exprs => evaluate_marker expr && evaluate_all exprs

def evaluate_any : List MarkerTree → Bool
  | [] => false
  | expr :: exprs => evaluate_marker expr || evaluate_any exprs

end

theorem evaluate_all_eq_true (exprs : List MarkerTree) :
    evaluate_all value extra cmp exprs = true ↔ ∀ t ∈ exprs, evaluate_marker value extra cmp t = true := by
  induction exprs with
  | nil => simp [evaluate_all]
  | cons t exprs ih => simp [evaluate_all, ih]

/-- The conjunct of a parameter holds when the parameter has its value in the environment. -/
theorem evaluate_marker_conjunct (marker_env : MarkerEnvironment)
    (hcmp : ∀ a b, cmp .Equal a b = true ↔ a = b) (p : MarkerParam) :
    evaluate_marker value extra cmp (marker_conjunct marker_env p) = true ↔
      value p = marker_env.value p := by
  cases p <;> simp [marker_conjunct, evaluate_marker, marker_value_text, hcmp,
    MarkerEnvironment.value]

end Evaluate

section Locality

variable {value value' : MarkerParam → String} (extra : String)
  (cmp : MarkerOperator → String → String → Bool)

theorem marker_value_text_congr (v : MarkerValue)
    (h : ∀ p, marker_param v = some p → value' p = value p) :
    marker_value_text value' extra v = marker_value_text value extra v := by
  cases v <;> simp only [marker_value_text] <;> exact h _ rfl

mutual

/-- A marker reads only the parameters it mentions. -/
theorem evaluate_marker_congr :
    ∀ t : MarkerTree, (∀ p, ParamOccurs p t → value' p = value p) →
      evaluate_marker value' extra cmp t = evaluate_marker value extra cmp t
  | .Expression expr, h => by
    simp only [evaluate_marker]
    rw [marker_value_text_congr extra expr.l_value fun p hp => h p (.l_value hp),
      marker_value_text_congr extra expr.r_value fun p hp => h p (.r_value hp)]
  | .And exprs, h => by
    simp only [evaluate_marker]
    exact evaluate_all_congr exprs fun t ht p hp => h p (.and ht hp)
  | .Or exprs, h => by
    simp only [evaluate_marker]
    exact evaluate_any_congr exprs fun t ht p hp => h p (.or ht hp)

theorem evaluate_all_congr :
    ∀ exprs : List MarkerTree, (∀ t ∈ exprs, ∀ p, ParamOccurs p t → value' p = value p) →
      evaluate_all value' extra cmp exprs = evaluate_all value extra cmp exprs
  | [], _ => rfl
  | t :: exprs, h => by
    simp only [evaluate_all]
    rw [evaluate_marker_congr t (h t (List.mem_cons_self _ _)),
      evaluate_all_congr exprs fun t' ht' => h t' (List.mem_cons_of_mem _ ht')]

theorem evaluate_any_congr :
    ∀ exprs : List MarkerTree, (∀ t ∈ exprs, ∀ p, ParamOccurs p t → value' p = value p) →
      evaluate_any value' extra cmp exprs = evaluate_any value extra cmp exprs
  | [], _ => rfl
  | t :: exprs, h => by
    simp only [evaluate_any]
    rw [evaluate_marker_congr t (h t (List.mem_cons_self _ _)),
      evaluate_any_congr exprs fun t' ht' => h t' (List.mem_cons_of_mem _ ht')]

end

end Locality

/-! ## The parameters of the result -/

/-- A marker that `marker_tree` reads: that of a requirement, after the manifest's
overrides, of the metadata of a node, or of a direct requirement or an editable's
dependency. -/
def CollectedMarker (ext : Externals) (g : ResolutionGraph V) (manifest : Manifest)
    (distributions : VersionId V → Option MetadataResponse) (t : MarkerTree) : Prop :=
  (∃ dist ∈ g.petgraph.nodes, ∃ archive requirements,
    distributions dist.version_id = some (.Found archive) ∧
    archive.metadata.requires_dist.mapM ext.from_pep508 = .ok requirements ∧
    ∃ req ∈ manifest.apply requirements, req.marker = some t) ∨
  ∃ req ∈ manifest.apply (manifest.requirements ++
    manifest.editables.flatMap fun e => e.2.2.dependencies), req.marker = some t

theorem node_requirements_eq_ok {ext : Externals}
    {distributions : VersionId V → Option MetadataResponse} {dist : ResolvedDist V}
    {requirements : List Requirement} :
    node_requirements ext distributions dist = ok requirements ↔
      ∃ archive, distributions dist.version_id = some (.Found archive) ∧
        archive.metadata.requires_dist.mapM ext.from_pep508 = .ok requirements := by
  have hid : (match dist.version_or_url with
      | .Version version => VersionId.from_registry dist.name version
      | .Url verbatim_url => .from_url verbatim_url) = dist.version_id := rfl
  simp only [node_requirements, hid, bind_eq_ok, lift_eq_ok]
  rcases distributions dist.version_id with _ | ⟨archive⟩ | _ | _ | _ <;> simp

theorem mem_add_requirement_markers (seen : FxHashSet MarkerParam)
    (requirements : List Requirement) (p : MarkerParam) :
    p ∈ (add_requirement_markers seen requirements).elems ↔
      (∃ req ∈ requirements, ∃ t, req.marker = some t ∧ ParamOccurs p t) ∨ p ∈ seen.elems := by
  induction requirements generalizing seen with
  | nil => simp [add_requirement_markers]
  | cons req requirements ih =>
    simp only [add_requirement_markers, List.foldl_cons] at ih ⊢
    rw [ih]
    cases hm : req.marker with
    | none => simp [hm]
    | some t =>
      simp only [mem_add_marker_params_from_tree, List.mem_cons, exists_eq_or_imp, hm,
        Option.some.injEq, exists_eq_left']
      rw [or_assoc]
      exact or_left_comm

/-- The loop over the nodes adds the parameters of the markers of their requirements. -/
theorem mem_foldl_add_requirement_markers (manifest : Manifest) (p : MarkerParam) :
    ∀ (as : List (List Requirement)) (acc : FxHashSet MarkerParam),
      p ∈ (as.foldl (fun seen requirements =>
        add_requirement_markers seen (manifest.apply requirements)) acc).elems ↔
      (∃ requirements ∈ as, ∃ req ∈ manifest.apply requirements, ∃ t, req.marker = some t ∧
        ParamOccurs p t) ∨ p ∈ acc.elems
  | [], _ => by simp
  | r :: as, acc => by
    rw [List.foldl_cons, mem_foldl_add_requirement_markers manifest p as,
      mem_add_requirement_markers]
    simp only [List.mem_cons, exists_eq_or_imp]
    rw [or_assoc]
    exact or_left_comm

variable {ext : Externals} {g : ResolutionGraph V} {manifest : Manifest}
  {distributions : VersionId V → Option MetadataResponse} {marker_env : MarkerEnvironment}

/-- A marker that `marker_tree` returns pins each parameter of the markers it reads, once,
and no other. -/
theorem marker_tree_ok {m : MarkerTree}
    (h : marker_tree ext g manifest distributions marker_env = ok m) :
    ∃ seen : FxHashSet MarkerParam, m = .And (seen.elems.map (marker_conjunct marker_env)) ∧
      ∀ p, p ∈ seen.elems ↔ ∃ t, CollectedMarker ext g manifest distributions t ∧ ParamOccurs p t := by
  simp only [marker_tree, bind_eq_ok, Outcome.ok.injEq] at h
  obtain ⟨_, hloop, rfl⟩ := h
  obtain ⟨as, has, rfl⟩ := (foldlM_ok_iff _ _ _ _ _).1 hloop
  refine ⟨_, rfl, fun p => ?_⟩
  rw [mem_add_requirement_markers, mem_foldl_add_requirement_markers]
  simp only [FxHashSet.elems_empty, List.not_mem_nil, or_false, CollectedMarker]
  constructor
  · rintro (⟨req, hreq, t, ht, hp⟩ | ⟨requirements, hr, req, hreq, t, ht, hp⟩)
    · exact ⟨t, .inr ⟨req, hreq, ht⟩, hp⟩
    · obtain ⟨dist, hdist, hd⟩ := exists_of_mem_forall₂_right has hr
      obtain ⟨archive, ha, hm⟩ := node_requirements_eq_ok.1 hd
      exact ⟨t, .inl ⟨dist, hdist, archive, requirements, ha, hm, req, hreq, ht⟩, hp⟩
  · rintro ⟨t, ⟨dist, hdist, archive, requirements, ha, hm, req, hreq, ht⟩ | ⟨req, hreq, ht⟩, hp⟩
    · obtain ⟨requirements', hr, hd⟩ := exists_of_mem_forall₂ has hdist
      have : requirements' = requirements := by
        have := (node_requirements_eq_ok.1 hd)
        obtain ⟨archive', ha', hm'⟩ := this
        rw [ha] at ha'
        cases ha'
        rw [hm] at hm'
        cases hm'
        rfl
      subst this
      exact .inr ⟨requirements', hr, req, hreq, t, ht, hp⟩
    · exact .inl ⟨req, hreq, t, ht, hp⟩

/-- When `marker_tree` returns a marker, it is the conjunction of one conjunct for each
parameter that a marker it reads mentions as an operand, at any depth, pinning it to its
text in the environment; an environment satisfies it exactly when it gives each of those
parameters that text; and every marker that `marker_tree` reads evaluates in such an
environment as in this one. -/
theorem marker_tree_params {m : MarkerTree}
    (h : marker_tree ext g manifest distributions marker_env = ok m) :
    ∃ ps : List MarkerParam, m = .And (ps.map (marker_conjunct marker_env)) ∧ ps.Nodup ∧
      (∀ p, p ∈ ps ↔ ∃ t, CollectedMarker ext g manifest distributions t ∧ ParamOccurs p t) ∧
      (∀ (value : MarkerParam → String) (extra : String)
        (cmp : MarkerOperator → String → String → Bool), (∀ a b, cmp .Equal a b = true ↔ a = b) →
        (evaluate_marker value extra cmp m = true ↔ ∀ p ∈ ps, value p = marker_env.value p)) ∧
      ∀ value : MarkerParam → String, (∀ p ∈ ps, value p = marker_env.value p) →
        ∀ t, CollectedMarker ext g manifest distributions t → ∀ extra cmp,
          evaluate_marker value extra cmp t = evaluate_marker marker_env.value extra cmp t := by
  obtain ⟨seen, rfl, hseen⟩ := marker_tree_ok h
  refine ⟨seen.elems, rfl, seen.nodup, hseen, fun value extra cmp hcmp => ?_,
    fun value hvalue t ht extra cmp => ?_⟩
  · simp only [evaluate_marker, evaluate_all_eq_true, List.mem_map, forall_exists_index, and_imp,
      forall_apply_eq_imp_iff₂, evaluate_marker_conjunct value extra cmp marker_env hcmp]
  · exact evaluate_marker_congr extra cmp t fun p hp => hvalue p ((hseen p).2 ⟨t, ht, hp⟩)

theorem marker_tree_params_sample : ∃ (g : ResolutionGraph Nat) (m : MarkerTree),
    from_state sample_externals sample_selection sample_pins sample_packages sample_distributions
      sample_state sample_preferences .empty = ok g ∧
    marker_tree sample_externals g ⟨[], [], id⟩ sample_distributions
      ⟨fun _ => "3.12", fun _ => "linux"⟩ = ok m ∧
    ∃ ps : List MarkerParam, m = .And (ps.map (marker_conjunct ⟨fun _ => "3.12", fun _ => "linux"⟩)) ∧
      ps.Nodup ∧
      (∀ p, p ∈ ps ↔ ∃ t, CollectedMarker sample_externals g ⟨[], [], id⟩ sample_distributions t ∧
        ParamOccurs p t) ∧
      (∀ (value : MarkerParam → String) (extra : String)
        (cmp : MarkerOperator → String → String → Bool), (∀ a b, cmp .Equal a b = true ↔ a = b) →
        (evaluate_marker value extra cmp m = true ↔
          ∀ p ∈ ps, value p = MarkerEnvironment.value ⟨fun _ => "3.12", fun _ => "linux"⟩ p)) ∧
      ∀ value : MarkerParam → String,
        (∀ p ∈ ps, value p = MarkerEnvironment.value ⟨fun _ => "3.12", fun _ => "linux"⟩ p) →
        ∀ t, CollectedMarker sample_externals g ⟨[], [], id⟩ sample_distributions t → ∀ extra cmp,
          evaluate_marker value extra cmp t =
            evaluate_marker (MarkerEnvironment.value ⟨fun _ => "3.12", fun _ => "linux"⟩) extra cmp t :=
  ⟨_, _, rfl, rfl, marker_tree_params rfl⟩

/-! ## The metadata of the nodes -/

theorem node_requirements_of_found {ext : Externals}
    {index : VersionId V → Option MetadataResponse} {dist : ResolvedDist V}
    {archive : ArchiveMetadata} (ha : index dist.version_id = some (.Found archive)) :
    node_requirements ext index dist = lift id (archive.metadata.requires_dist.mapM ext.from_pep508) := by
  unfold node_requirements
  cases hd : dist.version_or_url <;> simp_all [ResolvedDist.version_id]

section Metadata

variable [LinearOrder V] {ext : Externals} {selection : SelectedDependencies V}
  {pins : FilePins V} {packages : PackageName → Option (VersionsResponse V)}
  {distributions : VersionId V → Option MetadataResponse} {state : State V}
  {preferences : Preferences V} {editables : Editables} {g : ResolutionGraph V}

/-- When the index holds the metadata of every selected package that is not editable under
the key of its name and version, or of its URL made precise, and that of every selected
editable under its URL, it holds the metadata of every node of the graph, and
`marker_tree` does not panic. -/
theorem marker_tree_metadata_found {index : VersionId V → Option MetadataResponse}
    (hmeta : ∀ n u v, (PubGrubPackage.Package n none u, v) ∈ selection.entries →
      editables.get n = none →
        ∃ archive, index (extra_dist n (u.map (made_precise ext)) v).version_id =
          some (.Found archive))
    (heditable : ∀ n u v editable rest, (PubGrubPackage.Package n none u, v) ∈ selection.entries →
      editables.get n = some (editable, rest) →
        ∃ archive, index (.from_url editable.url) = some (.Found archive))
    (h : from_state ext selection pins packages distributions state preferences editables = ok g) :
    (∀ dist ∈ g.petgraph.nodes, ∃ archive, index dist.version_id = some (.Found archive)) ∧
    ∀ manifest marker_env, NoPanic (marker_tree ext g manifest index marker_env) := by
  have hfound : ∀ dist ∈ g.petgraph.nodes, ∃ archive, index dist.version_id = some (.Found archive) := by
    intro dist hdist
    obtain ⟨b, hb, -, hnodes, -⟩ := from_state_ok h
    obtain ⟨adds, hadds, hn, -⟩ := node_pass_added hb
    rw [hnodes, hn] at hdist
    obtain ⟨y, hy, rfl⟩ := List.mem_map.1 hdist
    obtain ⟨⟨n, u, v⟩, hx, -, hd, -⟩ := exists_of_mem_forall₂_right hadds hy
    have hsel := mem_base_entries.1 hx
    unfold BaseDist at hd
    rcases he : editables.get n with _ | ⟨editable, rest⟩ <;> simp only [he] at hd
    · cases u with
      | none =>
        obtain ⟨hname, hv⟩ := pins.get_pinned n v _ hd
        have hid : y.2.1.version_id = (extra_dist n none v).version_id := by
          simp [ResolvedDist.version_id, hv, hname, extra_dist, PubGrubDistribution.from_registry,
            PubGrubDistribution.version_id]
        rw [hid]
        exact hmeta n none v hsel he
      | some url =>
        rw [Dist.from_url_ok hd]
        exact hmeta n (some url) v hsel he
    · rw [Dist.from_editable_ok hd]
      exact heditable n u v editable rest hsel he
  refine ⟨hfound, fun manifest marker_env => ?_⟩
  refine noPanic_bind (noPanic_foldlM _ _ _ fun _ dist hdist => noPanic_bind ?_ fun _ _ => noPanic_ok _)
    fun _ _ => noPanic_ok _
  obtain ⟨archive, ha⟩ := hfound dist hdist
  rw [node_requirements_of_found ha]
  exact noPanic_lift _ _

theorem marker_tree_metadata_found_sample : ∃ g : ResolutionGraph Nat,
    (∀ n u v, (PubGrubPackage.Package n none u, v) ∈ sample_selection.entries →
      (FxHashMap.empty : Editables).get n = none →
        ∃ archive, sample_distributions
          (extra_dist n (u.map (made_precise sample_externals)) v).version_id =
            some (.Found archive)) ∧
    (∀ n u v editable rest, (PubGrubPackage.Package n none u, v) ∈ sample_selection.entries →
      (FxHashMap.empty : Editables).get n = some (editable, rest) →
        ∃ archive, sample_distributions (.from_url editable.url) = some (.Found archive)) ∧
    from_state sample_externals sample_selection sample_pins sample_packages sample_distributions
      sample_state sample_preferences .empty = ok g ∧
    (∀ dist ∈ g.petgraph.nodes, ∃ archive,
      sample_distributions dist.version_id = some (.Found archive)) ∧
    ∀ manifest marker_env, NoPanic (marker_tree sample_externals g manifest sample_distributions
      marker_env) := by
  have hmeta : ∀ n u v, (PubGrubPackage.Package n none u, v) ∈ sample_selection.entries →
      (FxHashMap.empty : Editables).get n = none →
        ∃ archive, sample_distributions
          (extra_dist n (u.map (made_precise sample_externals)) v).version_id =
            some (.Found archive) := by
    intro n u v h _
    simp [sample_selection] at h
    rcases h with ⟨⟨rfl, rfl⟩, rfl⟩ | ⟨⟨rfl, rfl⟩, rfl⟩ <;> exact ⟨_, rfl⟩
  have heditable : ∀ n u v editable rest,
      (PubGrubPackage.Package n none u, v) ∈ sample_selection.entries →
      (FxHashMap.empty : Editables).get n = some (editable, rest) →
        ∃ archive, sample_distributions (.from_url editable.url) = some (.Found archive) :=
    fun _ _ _ _ _ _ h => by simp at h
  exact ⟨_, hmeta, heditable, rfl, marker_tree_metadata_found hmeta heditable
    (rfl : from_state sample_externals sample_selection sample_pins sample_packages
      sample_distributions sample_state sample_preferences .empty = _)⟩

/-! ## A Git URL made precise -/

def git_url : VerbatimUrl := "git+https://github.com/pallets/flask@main"

def git_externals : Externals :=
  ⟨fun _ => none, fun _ => none,
    fun url => if url = git_url then some "git+https://github.com/pallets/flask@4e6b3d2" else none,
    fun _ precise => precise, fun r => .ok ⟨r.name, r.extras, r.marker, r.origin⟩⟩

def git_selection : SelectedDependencies Nat := ⟨[(.Package "flask" none (some git_url), 2)], by decide⟩

def git_state : State Nat :=
  ⟨⟨[(.Package "flask" none (some git_url), [])], by decide⟩, fun _ => ⟨.NotRoot (.Root none) 0⟩⟩

def git_distributions : VersionId Nat → Option MetadataResponse
  | .Url "git+https://github.com/pallets/flask@main" => some (.Found ⟨⟨"flask", [], []⟩, []⟩)
  | _ => none

/-- The index holds the metadata of a Git package under the URL that the selection names,
the key under which `from_state` reads it, but `to_precise` has resolved the node's URL to
a commit, and `marker_tree` looks the node up under that URL: it panics. -/
theorem marker_tree_precise_url_panics : ∃ g : ResolutionGraph Nat,
    from_state git_externals git_selection sample_pins sample_packages git_distributions
      git_state sample_preferences .empty = ok g ∧
    (∀ n u v, (PubGrubPackage.Package n none u, v) ∈ git_selection.entries →
      (FxHashMap.empty : Editables).get n = none →
        ∃ archive, git_distributions (extra_dist n u v).version_id = some (.Found archive)) ∧
    made_precise git_externals git_url ≠ git_url ∧
    marker_tree git_externals g ⟨[], [], id⟩ git_distributions ⟨fun _ => "3.12", fun _ => "linux"⟩ =
      panic "every package in resolution graph has metadata" := by
  refine ⟨_, rfl, fun n u v h _ => ?_, by decide, rfl⟩
  simp [git_selection] at h
  obtain ⟨⟨rfl, rfl⟩, rfl⟩ := h
  exact ⟨_, rfl⟩

end Metadata

end uv_resolver.resolution
