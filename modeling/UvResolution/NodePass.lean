-- The laws of the node pass of `from_state`: each entry of the selection is looked at
-- alone, so the pass is a fold of its actions, and every node, hash, extra and
-- diagnostic of the graph comes from one entry of the selection.
import UvResolution.FromState

namespace uv_resolver.resolution

open uv_resolver Outcome

variable {V : Type}

/-! ## What the actions add -/

namespace NodeAction

/-- The node that an action adds, with its name and its hashes. -/
def added : NodeAction V → Option (PackageName × ResolvedDist V × Option (List HashDigest))
  | .AddNode name dist digests => some (name, dist, digests)
  | _ => none

/-- The extra that an action enables. -/
def enabled : NodeAction V → Option (PackageName × ExtraName)
  | .AddExtra name extra => some (name, extra)
  | _ => none

def diagnostic : NodeAction V → Option (Diagnostic V)
  | .AddDiagnostic diagnostic => some diagnostic
  | _ => none

end NodeAction

section Apply

variable (b : Builder V) (a : NodeAction V) (n : PackageName)

@[simp] theorem apply_nodes :
    (b.apply a).petgraph.nodes = b.petgraph.nodes ++ (a.added.map fun x => x.2.1).toList := by
  cases a <;> simp [Builder.apply, NodeAction.added, Graph.add_node]

@[simp] theorem apply_edges : (b.apply a).petgraph.edges = b.petgraph.edges := by
  cases a <;> rfl

@[simp] theorem apply_diagnostics :
    (b.apply a).diagnostics = b.diagnostics ++ a.diagnostic.toList := by
  cases a <;> simp [Builder.apply, NodeAction.diagnostic]

theorem apply_hashes :
    (b.apply a).hashes.get n =
      ((a.added.filter fun x => x.1 = n).bind fun x => x.2.2).or (b.hashes.get n) := by
  cases a with
  | AddNode m d ds =>
    by_cases h : m = n
    · subst h; cases ds <;> simp [Builder.apply, NodeAction.added, Option.filter_some]
    · have : ¬ n = m := fun e => h e.symm
      cases ds <;> simp [Builder.apply, NodeAction.added, Option.filter_some, h, this]
  | _ => simp [Builder.apply, NodeAction.added, Option.filter_some]

theorem apply_inverse :
    (b.apply a).inverse.get n =
      if (a.added.filter fun x => x.1 = n).isSome then some b.petgraph.nodes.length
      else b.inverse.get n := by
  cases a with
  | AddNode m d ds =>
    by_cases h : m = n
    · subst h; simp [Builder.apply, NodeAction.added, Option.filter_some, Graph.add_node]
    · have : ¬ n = m := fun e => h e.symm
      simp [Builder.apply, NodeAction.added, Option.filter_some, h, this]
  | _ => simp [Builder.apply, NodeAction.added, Option.filter_some]

theorem apply_extras :
    ((b.apply a).extras.get n).getD [] =
      (b.extras.get n).getD [] ++ ((a.enabled.filter fun x => x.1 = n).map Prod.snd).toList := by
  cases a with
  | AddExtra m x =>
    by_cases h : m = n
    · subst h; simp [Builder.apply, NodeAction.enabled, FxHashMap.getD_push, Option.filter_some]
    · have : ¬ n = m := fun e => h e.symm
      simp [Builder.apply, NodeAction.enabled, FxHashMap.getD_push, Option.filter_some, h, this]
  | _ => simp [Builder.apply, NodeAction.enabled]

theorem apply_extras_total :
    (b.apply a).extras.total = b.extras.total + a.enabled.toList.length := by
  cases a with
  | AddExtra m x => simp [Builder.apply, NodeAction.enabled, FxHashMap.total_push]
  | _ => simp [Builder.apply, NodeAction.enabled]

end Apply

/-! ## The fold of the actions -/

section Fold

variable (as : List (NodeAction V))

theorem foldl_nodes (b : Builder V) :
    (as.foldl Builder.apply b).petgraph.nodes =
      b.petgraph.nodes ++ (as.filterMap NodeAction.added).map fun x => x.2.1 := by
  induction as generalizing b with
  | nil => simp
  | cons a as ih => cases h : a.added <;> simp [ih, h, List.filterMap_cons]

theorem foldl_edges (b : Builder V) :
    (as.foldl Builder.apply b).petgraph.edges = b.petgraph.edges := by
  induction as generalizing b with
  | nil => rfl
  | cons a as ih => simp [ih]

theorem foldl_diagnostics (b : Builder V) :
    (as.foldl Builder.apply b).diagnostics = b.diagnostics ++ as.filterMap NodeAction.diagnostic := by
  induction as generalizing b with
  | nil => simp
  | cons a as ih => cases h : a.diagnostic <;> simp [ih, h, List.filterMap_cons]

theorem filterMap_cons_toList {α β : Type} (f : α → Option β) (a : α) (l : List α) :
    (a :: l).filterMap f = (f a).toList ++ l.filterMap f := by
  cases h : f a <;> simp [List.filterMap_cons, h]

theorem getLast?_filterMap_toList {α β : Type} (o : Option α) (p : α → Bool) (g : α → Option β) :
    ((o.toList.filter p).filterMap g).getLast? = (o.filter p).bind g := by
  cases o with
  | none => rfl
  | some x => by_cases h : p x <;> cases hg : g x <;> simp [Option.filter_some, h, hg]

/-- The hashes of a name are those of the last node added under it. -/
theorem foldl_hashes (b : Builder V) (n : PackageName) :
    (as.foldl Builder.apply b).hashes.get n =
      ((((as.filterMap NodeAction.added).filter fun x => x.1 = n).filterMap
        fun x => x.2.2).getLast?).or (b.hashes.get n) := by
  induction as generalizing b with
  | nil => simp
  | cons a as ih =>
    rw [List.foldl_cons, ih, apply_hashes, filterMap_cons_toList, List.filter_append,
      List.filterMap_append, List.getLast?_append, Option.or_assoc, getLast?_filterMap_toList]

theorem foldl_extras (b : Builder V) (n : PackageName) :
    ((as.foldl Builder.apply b).extras.get n).getD [] =
      (b.extras.get n).getD [] ++
        ((as.filterMap NodeAction.enabled).filter fun x => x.1 = n).map Prod.snd := by
  induction as generalizing b with
  | nil => simp
  | cons a as ih =>
    rw [List.foldl_cons, ih, apply_extras]
    rcases ha : a.enabled with _ | ⟨m, x⟩
    · simp [List.filterMap_cons, ha]
    · by_cases h : m = n <;> simp [List.filterMap_cons, ha, h, List.filter_cons, Option.filter_some]

/-- A name has an entry in the extras only once an extra of it was enabled. -/
theorem foldl_extras_none (b : Builder V) (n : PackageName) (h : b.extras.get n = none)
    (hn : ∀ x ∈ as.filterMap NodeAction.enabled, x.1 ≠ n) :
    (as.foldl Builder.apply b).extras.get n = none := by
  induction as generalizing b with
  | nil => exact h
  | cons a as ih =>
    rw [List.foldl_cons]
    refine ih _ ?_ fun x hx => hn x (((List.sublist_cons_self a as).filterMap _).subset hx)
    cases a with
    | AddExtra m x =>
      have : n ≠ m := fun e => hn (m, x) (by simp [NodeAction.enabled]) e.symm
      simp [Builder.apply, this, h]
    | _ => exact h

theorem foldl_extras_total (b : Builder V) :
    (as.foldl Builder.apply b).extras.total =
      b.extras.total + (as.filterMap NodeAction.enabled).length := by
  induction as generalizing b with
  | nil => simp
  | cons a as ih =>
    rw [List.foldl_cons, ih, apply_extras_total]
    cases h : a.enabled <;> simp [List.filterMap_cons, h]; omega

/-- The inverse map sends each name to a node added under it, and knows every name that a
node was added under. -/
def InverseOk (inverse : FxHashMap PackageName NodeIndex) (names : List PackageName) : Prop :=
  (∀ n i, inverse.get n = some i → names[i]? = some n) ∧ ∀ n ∈ names, (inverse.get n).isSome

theorem inverseOk_foldl (b : Builder V) (names : List PackageName)
    (hlen : names.length = b.petgraph.nodes.length) (h : InverseOk b.inverse names) :
    InverseOk (as.foldl Builder.apply b).inverse
      (names ++ (as.filterMap NodeAction.added).map Prod.fst) := by
  induction as generalizing b names with
  | nil => simpa using h
  | cons a as ih =>
    rw [List.foldl_cons]
    rcases ha : a.added with _ | ⟨m, d, ds⟩
    · have hi : (b.apply a).inverse = b.inverse := by
        cases a <;> simp_all [NodeAction.added] <;> rfl
      simpa [List.filterMap_cons, ha] using
        ih (b.apply a) names (by simp [hlen, ha]) (hi ▸ h)
    · have := ih (b.apply a) (names ++ [m]) (by simp [hlen, ha]) ⟨?_, ?_⟩
      · simpa [List.filterMap_cons, ha] using this
      · intro n i hi
        rw [apply_inverse, ha] at hi
        by_cases hm : m = n
        · subst hm; simp [Option.filter_some] at hi; subst hi; simp [hlen]
        · simp only [Option.filter_some, hm, decide_False, Option.isSome_none, Bool.false_eq_true,
            if_false] at hi
          have := h.1 n i hi
          rw [List.getElem?_append_left (List.getElem?_eq_some_iff.1 this).1]; exact this
      · intro n hn
        rw [apply_inverse, ha]
        by_cases hm : m = n
        · subst hm; simp [Option.filter_some]
        · have : n ∈ names := by simpa [Ne.symm hm] using hn
          simpa [Option.filter_some, hm] using h.2 n this

section InverseOk

variable {inverse : FxHashMap PackageName NodeIndex} {names : List PackageName}

theorem InverseOk.lt (h : InverseOk inverse names) {n : PackageName} {i : NodeIndex}
    (hi : inverse.get n = some i) : i < names.length :=
  (List.getElem?_eq_some_iff.1 (h.1 n i hi)).1

/-- Two names sent to one node are the same name. -/
theorem InverseOk.inj (h : InverseOk inverse names) {n m : PackageName} {i : NodeIndex}
    (hn : inverse.get n = some i) (hm : inverse.get m = some i) : n = m :=
  Option.some.inj ((h.1 n i hn).symm.trans (h.1 m i hm))

/-- When the names are distinct, the inverse map sends each to its position. -/
theorem InverseOk.get_of_getElem? (h : InverseOk inverse names) (hnd : names.Nodup)
    {i : Nat} {n : PackageName} (hi : names[i]? = some n) : inverse.get n = some i := by
  obtain ⟨j, hj⟩ := Option.isSome_iff_exists.1 (h.2 n (List.getElem?_mem hi))
  rw [hj, List.getElem?_inj (h.lt hj) hnd ((h.1 _ _ hj).trans hi.symm)]

end InverseOk

end Fold

/-! ## The entries of a selection -/

/-- A base entry `Package(name, None, url)`, with its version. -/
def base_entry : PubGrubPackage × V → Option (PackageName × Option VerbatimUrl × V)
  | (.Package name none url, version) => some (name, url, version)
  | _ => none

/-- An entry `Package(name, Some(extra), url)` of an extra's group, with its version. -/
def extra_entry : PubGrubPackage × V → Option (PackageName × ExtraName × Option VerbatimUrl × V)
  | (.Package name (some extra) url, version) => some (name, extra, url, version)
  | _ => none

def base_entries (entries : List (PubGrubPackage × V)) :
    List (PackageName × Option VerbatimUrl × V) := entries.filterMap base_entry

def extra_entries (entries : List (PubGrubPackage × V)) :
    List (PackageName × ExtraName × Option VerbatimUrl × V) := entries.filterMap extra_entry

/-- Where the arm of an extra reads the metadata of a non-editable package. -/
def extra_dist (name : PackageName) (url : Option VerbatimUrl) (version : V) :
    PubGrubDistribution V :=
  match url with
  | none => .from_registry name version
  | some url => .from_url name url

section Actions

variable (ext : Externals) (pins : FilePins V)
  (packages : PackageName → Option (VersionsResponse V))
  (distributions : VersionId V → Option MetadataResponse) (preferences : Preferences V)
  (editables : Editables)

/-- Modelled from the spec: the URL made precise by `to_precise` and `apply_redirect`. -/
def made_precise (url : VerbatimUrl) : VerbatimUrl :=
  ((ext.to_precise url).map (ext.apply_redirect url)).getD url

theorem precise_url_eq (url : VerbatimUrl) : precise_url ext url = made_precise ext url := by
  unfold precise_url made_precise
  cases ext.to_precise url <;> rfl

/-- Modelled from the spec: the distribution that the node of a base entry holds: the
editable's when the name is editable, and otherwise the pinned one for a registry package
and the one of its URL, made precise, for a URL package. -/
def BaseDist (name : PackageName) (url : Option VerbatimUrl) (version : V)
    (dist : ResolvedDist V) : Prop :=
  match editables.get name with
  | some (editable, _, _) => Dist.from_editable ext name editable = .ok dist
  | none =>
    match url with
    | none => pins.get name version = some dist
    | some url => Dist.from_url ext name (made_precise ext url) = .ok dist

/-- The hashes that the node pass records for a base entry whose node holds `dist`. -/
def base_digests (name : PackageName) (url : Option VerbatimUrl) (version : V)
    (dist : ResolvedDist V) : Option (List HashDigest) :=
  preferred_digests preferences name version
    (match url with
     | none => registry_digests packages name version
     | some _ => url_digests distributions dist)

/-- Modelled from the spec: `ds` is `hs` sorted. -/
def SortedDigests (hs ds : List HashDigest) : Prop := ds.Perm hs ∧ ds.Sorted fun a b => a.le b

/-- Modelled from the spec: the hashes that the first version map of a name, in order, that
lists hashes for the version publishes. -/
def PublishedDigests (name : PackageName) (version : V) (hs : List HashDigest) : Prop :=
  ∃ version_maps, packages name = some (.Found version_maps) ∧
    ∃ before version_map after, version_maps = before ++ version_map :: after ∧
      (∀ m ∈ before, m.hashes version = none) ∧ version_map.hashes version = some hs

/-- Modelled from the spec: the hashes of a base entry besides the lockfile's: those
published for a registry entry's version, and those of the archive that the index holds
under its node's `VersionId` for a URL entry. -/
def FallbackDigests (name : PackageName) (url : Option VerbatimUrl) (version : V)
    (dist : ResolvedDist V) (hs : List HashDigest) : Prop :=
  match url with
  | none => PublishedDigests packages name version hs
  | some _ => ∃ archive, distributions dist.version_id = some (.Found archive) ∧ archive.hashes = hs

/-- Modelled from the spec: the hashes that the graph records for a base entry whose node
holds `dist`: the lockfile's when they are not empty, else its other hashes sorted, and
none when it has neither. -/
def RecordedHashes (name : PackageName) (url : Option VerbatimUrl) (version : V)
    (dist : ResolvedDist V) : Option (List HashDigest) → Prop
  | some ds => (preferences.match_hashes name version = some ds ∧ ds ≠ []) ∨
    ((∀ ds', preferences.match_hashes name version = some ds' → ds' = []) ∧
      ∃ hs, FallbackDigests packages distributions name url version dist hs ∧ SortedDigests hs ds)
  | none => (∀ ds', preferences.match_hashes name version = some ds' → ds' = []) ∧
    ∀ hs, ¬ FallbackDigests packages distributions name url version dist hs

/-- The metadata that the arm of an extra consults: the editable's, or the one the index
holds for `dist`. -/
def consulted_metadata (name : PackageName) (dist : PubGrubDistribution V) :
    Option Metadata23 :=
  match editables.get name with
  | some (_, metadata, _) => some metadata
  | none =>
    match distributions dist.version_id with
    | some (.Found archive) => some archive.metadata
    | _ => none

/-- The consulted metadata of an extra's entry declares the extra. -/
def provides_extra (x : PackageName × ExtraName × Option VerbatimUrl × V) : Bool :=
  match consulted_metadata distributions editables x.1 (extra_dist x.1 x.2.2.1 x.2.2.2) with
  | some metadata => decide (x.2.1 ∈ metadata.provides_extras)
  | none => false

theorem baseDist_name {name : PackageName} {url : Option VerbatimUrl} {version : V}
    {dist : ResolvedDist V} (h : BaseDist ext pins editables name url version dist) :
    dist.name = name := by
  unfold BaseDist at h
  split at h
  · rw [Dist.from_editable_ok h]
  · split at h
    · exact (pins.get_pinned _ _ _ h).1
    · rw [Dist.from_url_ok h]

/-- A base entry has one distribution. -/
theorem baseDist_unique {name : PackageName} {url : Option VerbatimUrl} {version : V}
    {dist dist' : ResolvedDist V} (h : BaseDist ext pins editables name url version dist)
    (h' : BaseDist ext pins editables name url version dist') : dist = dist' := by
  unfold BaseDist at h h'
  split at h <;> rename_i he <;> simp only [he] at h'
  · exact Except.ok.inj (h.symm.trans h')
  · cases url
    · exact Option.some.inj (h.symm.trans h')
    · exact Except.ok.inj (h.symm.trans h')

theorem registry_dist_ok {name : PackageName} {version : V} {dist : ResolvedDist V}
    (h : registry_dist ext pins editables name version = ok dist) :
    BaseDist ext pins editables name none version dist := by
  unfold registry_dist at h
  unfold BaseDist
  split at h
  · simp_all
  · rename_i hn
    simp only [hn]
    split at h <;> cases h
    assumption

theorem url_dist_ok {name : PackageName} {url : VerbatimUrl} {version : V}
    {dist : ResolvedDist V} (h : url_dist ext editables name url = ok dist) :
    BaseDist ext pins editables name (some url) version dist := by
  unfold url_dist at h
  unfold BaseDist
  split at h <;> simp_all [precise_url_eq]

theorem sortedDigests_sort (hs : List HashDigest) : SortedDigests hs (sort_digests hs) :=
  ⟨List.mergeSort_perm _ _, List.sorted_mergeSort HashDigest.le_is_trans HashDigest.le_is_total _⟩

/-- The node pass's hashes for a registry entry are those that the first version map that
lists some publishes, sorted. -/
theorem registry_digests_eq_some {name : PackageName} {version : V} {ds : List HashDigest} :
    registry_digests packages name version = some ds ↔
      ∃ hs, PublishedDigests packages name version hs ∧ ds = sort_digests hs := by
  unfold registry_digests PublishedDigests
  rcases packages name with _ | ⟨version_maps⟩ | _ | _ | _ <;> simp only [reduceCtorEq,
    false_and, exists_false, Option.some.injEq, VersionsResponse.Found.injEq, exists_eq_left',
    Option.map_eq_some', List.findSome?_eq_some_iff]
  constructor <;> rintro ⟨hs, ⟨before, m, after, rfl, h₁, h₂⟩, rfl⟩ <;>
    exact ⟨hs, ⟨before, m, after, rfl, h₂, h₁⟩, rfl⟩

theorem url_digests_eq_some {dist : ResolvedDist V} {ds : List HashDigest} :
    url_digests distributions dist = some ds ↔
      ∃ archive, distributions dist.version_id = some (.Found archive) ∧
        ds = sort_digests archive.hashes := by
  unfold url_digests
  rcases distributions dist.version_id with _ | ⟨archive⟩ | _ | _ | _ <;> simp [eq_comm]

/-- The lockfile's hashes, when not empty, and otherwise a fallback that gives the other
hashes of a base entry sorted, are the hashes the spec names. -/
theorem recordedHashes_preferred {name : PackageName} {url : Option VerbatimUrl}
    {version : V} {dist : ResolvedDist V} {fallback : Option (List HashDigest)}
    (hfallback : ∀ ds, fallback = some ds ↔
      ∃ hs, FallbackDigests packages distributions name url version dist hs ∧ ds = sort_digests hs) :
    RecordedHashes packages distributions preferences name url version dist
      (preferred_digests preferences name version fallback) := by
  unfold preferred_digests
  cases hf : (preferences.match_hashes name version).filter fun digests => !digests.isEmpty with
  | some ds =>
    obtain ⟨hm, hne⟩ := Option.filter_eq_some.1 hf
    exact .inl ⟨hm, by simpa using hne⟩
  | none =>
    have hno : ∀ ds', preferences.match_hashes name version = some ds' → ds' = [] :=
      fun ds' hm => by simpa [hm] using hf
    cases hd : fallback with
    | some ds =>
      exact .inr ⟨hno, ((hfallback ds).1 hd).imp fun hs ⟨h, e⟩ => ⟨h, e ▸ sortedDigests_sort hs⟩⟩
    | none => exact ⟨hno, fun hs h => by simpa [hd] using (hfallback _).2 ⟨hs, h, rfl⟩⟩

/-- The hashes that the node pass records for a base entry are those the spec names. -/
theorem recordedHashes_base_digests (name : PackageName) (url : Option VerbatimUrl)
    (version : V) (dist : ResolvedDist V) :
    RecordedHashes packages distributions preferences name url version dist
      (base_digests packages distributions preferences name url version dist) := by
  refine recordedHashes_preferred packages distributions preferences fun ds => ?_
  cases url with
  | none => exact registry_digests_eq_some packages
  | some _ =>
    rw [url_digests_eq_some distributions]
    exact ⟨fun ⟨a, ha, hd⟩ => ⟨_, ⟨a, ha, rfl⟩, hd⟩, fun ⟨_, ⟨a, ha, rfl⟩, hd⟩ => ⟨a, ha, hd⟩⟩

/-- The action of a base entry adds its node, with its distribution and its hashes. -/
theorem package_action_base {name : PackageName} {url : Option VerbatimUrl} {version : V}
    {a : NodeAction V}
    (h : package_action ext pins packages distributions preferences editables
      (.Package name none url, version) = ok a) :
    ∃ dist, BaseDist ext pins editables name url version dist ∧
      a = .AddNode name dist (base_digests packages distributions preferences name url version dist) := by
  cases url with
  | none =>
    simp only [package_action, bind_eq_ok] at h
    obtain ⟨dist, hd, h⟩ := h
    cases h
    exact ⟨dist, registry_dist_ok ext pins editables hd, rfl⟩
  | some url =>
    simp only [package_action, bind_eq_ok] at h
    obtain ⟨dist, hd, h⟩ := h
    cases h
    exact ⟨dist, url_dist_ok ext pins editables hd, rfl⟩

/-- The test that both arms of an extra make: the extra is enabled when the metadata
declares it, and otherwise the distribution that `missing` gives is reported. -/
theorem extra_arm_ok {name : PackageName} {extra : ExtraName} {metadata : Metadata23}
    {missing : Outcome ResolveError (ResolvedDist V)} {a : NodeAction V}
    (h : (if extra ∈ metadata.provides_extras then ok (.AddExtra name extra) else do
      let pinned_package ← missing
      ok (.AddDiagnostic (.MissingExtra pinned_package extra))) = ok a) :
    extra ∈ metadata.provides_extras ∧ a = .AddExtra name extra ∨
      extra ∉ metadata.provides_extras ∧
        ∃ d, missing = ok d ∧ a = .AddDiagnostic (.MissingExtra d extra) := by
  by_cases hx : extra ∈ metadata.provides_extras
  · simp only [hx, if_true, Outcome.ok.injEq] at h
    exact .inl ⟨hx, h.symm⟩
  · simp only [hx, if_false, bind_eq_ok] at h
    obtain ⟨d, hd, h⟩ := h
    cases h
    exact .inr ⟨hx, d, hd, rfl⟩

theorem extra_action_ok {name : PackageName} {extra : ExtraName} {dist : PubGrubDistribution V}
    {missing : Outcome ResolveError (ResolvedDist V)} {a : NodeAction V}
    (hm : ∀ d, missing = ok d → d.name = name)
    (h : extra_action ext distributions editables name extra dist missing = ok a) :
    ∃ metadata, consulted_metadata distributions editables name dist = some metadata ∧
      (extra ∈ metadata.provides_extras ∧ a = .AddExtra name extra ∨
        extra ∉ metadata.provides_extras ∧
          ∃ d : ResolvedDist V, d.name = name ∧ a = .AddDiagnostic (.MissingExtra d extra)) := by
  unfold extra_action at h
  unfold consulted_metadata
  rcases he : editables.get name with _ | ⟨editable, metadata, _⟩ <;> simp only [he] at h ⊢
  · rcases hr : distributions dist.version_id with _ | response
    · simp [hr] at h
    · cases response with
      | Found archive =>
        simp only [hr, ok_bind] at h
        exact ⟨archive.metadata, rfl,
          (extra_arm_ok h).imp_right fun ⟨hx, d, hd, ha⟩ => ⟨hx, d, hm d hd, ha⟩⟩
      | _ => simp [hr] at h
  · exact ⟨metadata, rfl, (extra_arm_ok h).imp_right fun ⟨hx, d, hd, ha⟩ =>
      ⟨hx, d, by rw [Dist.from_editable_ok ((lift_eq_ok _ _ _).1 hd)], ha⟩⟩

/-- The arm of an extra does not panic when the metadata of a non-editable package is found
and the distribution its report names is there. -/
theorem extra_action_noPanic {name : PackageName} {extra : ExtraName}
    {dist : PubGrubDistribution V} {missing : Outcome ResolveError (ResolvedDist V)}
    (hmeta : editables.get name = none →
      ∃ archive, distributions dist.version_id = some (.Found archive))
    (hmissing : editables.get name = none → NoPanic missing) :
    NoPanic (extra_action ext distributions editables name extra dist missing) := by
  unfold extra_action
  rcases he : editables.get name with _ | ⟨editable, metadata, _⟩ <;> simp only
  · obtain ⟨archive, ha⟩ := hmeta he
    simp only [ha, ok_bind]
    split
    · exact noPanic_ok _
    · exact noPanic_bind (hmissing he) fun _ _ => noPanic_ok _
  · split
    · exact noPanic_ok _
    · exact noPanic_bind (noPanic_lift _ _) fun _ _ => noPanic_ok _

/-- The arm of an extra returns an error only where `Dist::from_editable` fails for an
editable package, or where `missing` does for another. -/
theorem extra_action_err {name : PackageName} {extra : ExtraName}
    {dist : PubGrubDistribution V} {missing : Outcome ResolveError (ResolvedDist V)}
    {e : ResolveError} (h : extra_action ext distributions editables name extra dist missing = err e) :
    (∃ editable rest er, editables.get name = some (editable, rest) ∧
      (Dist.from_editable ext name editable : Except ParsedUrlError (ResolvedDist V)) = .error er ∧
      e = .ParsedUrl er) ∨ editables.get name = none ∧ missing = err e := by
  unfold extra_action at h
  rcases he : editables.get name with _ | ⟨editable, metadata, rest⟩ <;> simp only [he] at h
  · refine .inr ⟨rfl, ?_⟩
    rcases hr : distributions dist.version_id with _ | ⟨archive⟩ | _ | _ | _ <;>
      simp only [hr, panic_bind, reduceCtorEq, ok_bind] at h
    split at h
    · cases h
    · simp only [bind_eq_err, reduceCtorEq, and_false, exists_false, or_false] at h
      exact h
  · split at h
    · cases h
    · simp only [bind_eq_err, lift_eq_err, reduceCtorEq, and_false, exists_false, or_false] at h
      obtain ⟨er, hr, rfl⟩ := h
      exact .inl ⟨editable, (metadata, rest), er, rfl, hr, rfl⟩

/-- The action of an extra's entry enables the extra when the consulted metadata declares
it, and reports it missing, naming a distribution of the package, otherwise. -/
theorem package_action_extra {name : PackageName} {extra : ExtraName}
    {url : Option VerbatimUrl} {version : V} {a : NodeAction V}
    (h : package_action ext pins packages distributions preferences editables
      (.Package name (some extra) url, version) = ok a) :
    ∃ metadata,
      consulted_metadata distributions editables name (extra_dist name url version) = some metadata ∧
      (extra ∈ metadata.provides_extras ∧ a = .AddExtra name extra ∨
        extra ∉ metadata.provides_extras ∧
          ∃ d : ResolvedDist V, d.name = name ∧ a = .AddDiagnostic (.MissingExtra d extra)) := by
  cases url with
  | none =>
    refine extra_action_ok ext distributions editables (fun d hd => ?_) h
    split at hd
    · cases hd; exact (pins.get_pinned _ _ _ ‹_›).1
    · cases hd
  | some url =>
    refine extra_action_ok ext distributions editables (fun d hd => ?_) h
    rw [lift_eq_ok] at hd
    rw [Dist.from_url_ok hd]

theorem package_action_other {p : PubGrubPackage} (hp : ∀ n x u, p ≠ .Package n x u)
    (version : V) :
    package_action ext pins packages distributions preferences editables (p, version) = ok .Skip := by
  cases p with
  | Package n x u => exact absurd rfl (hp n x u)
  | _ => rfl

/-- The body of the node pass does not panic on an entry whose registry package is pinned
when it is not editable, and whose extra's metadata is found when it is not editable. -/
theorem package_action_noPanic {e : PubGrubPackage × V}
    (hpins : ∀ n x, e.1 = .Package n x none → editables.get n = none → (pins.get n e.2).isSome)
    (hmeta : ∀ n x u, e.1 = .Package n (some x) u → editables.get n = none →
      ∃ archive, distributions (extra_dist n u e.2).version_id = some (.Found archive)) :
    NoPanic (package_action ext pins packages distributions preferences editables e) := by
  obtain ⟨p, v⟩ := e
  cases p with
  | Package n x u =>
    rcases x with _ | x <;> rcases u with _ | url
    · refine noPanic_bind ?_ fun _ _ => noPanic_ok _
      unfold registry_dist
      rcases he : editables.get n with _ | ⟨editable, _⟩
      · obtain ⟨d, hd⟩ := Option.isSome_iff_exists.1 (hpins n none rfl he)
        simp only [hd]
        exact noPanic_ok _
      · exact noPanic_lift _ _
    · refine noPanic_bind ?_ fun _ _ => noPanic_ok _
      unfold url_dist
      split <;> exact noPanic_lift _ _
    · refine extra_action_noPanic ext distributions editables (hmeta n x none rfl) fun he => ?_
      obtain ⟨d, hd⟩ := Option.isSome_iff_exists.1 (hpins n (some x) rfl he)
      simp only [hd]
      exact noPanic_ok _
    · exact extra_action_noPanic ext distributions editables (hmeta n x (some url) rfl)
        fun _ => noPanic_lift _ _
  | _ => exact noPanic_ok _

/-- The body of the node pass returns an error only where `Dist::from_editable` fails for
an editable package, or `Dist::from_url` for the precise URL of a non-editable one. -/
theorem package_action_err {e : PubGrubPackage × V} {err : ResolveError}
    (h : package_action ext pins packages distributions preferences editables e = .err err) :
    ∃ n x u, e.1 = .Package n x u ∧
      ((∃ editable rest er, editables.get n = some (editable, rest) ∧
          (Dist.from_editable ext n editable : Except ParsedUrlError (ResolvedDist V)) = .error er ∧
          err = .ParsedUrl er) ∨
        ∃ url er, u = some url ∧ editables.get n = none ∧
          (Dist.from_url ext n (precise_url ext url) : Except ParsedUrlError (ResolvedDist V)) =
            .error er ∧ err = .ParsedUrl er) := by
  obtain ⟨p, v⟩ := e
  cases p with
  | Package n x u =>
    refine ⟨n, x, u, rfl, ?_⟩
    rcases x with _ | x <;> rcases u with _ | url <;>
      simp only [package_action, bind_eq_err, reduceCtorEq, and_false, exists_false,
        or_false] at h
    · unfold registry_dist at h
      rcases he : editables.get n with _ | ⟨editable, rest⟩ <;> simp only [he] at h
      · split at h <;> cases h
      · obtain ⟨er, hr, rfl⟩ := (lift_eq_err _ _ _).1 h
        exact .inl ⟨editable, rest, er, rfl, hr, rfl⟩
    · unfold url_dist at h
      rcases he : editables.get n with _ | ⟨editable, rest⟩ <;> simp only [he] at h <;>
        obtain ⟨er, hr, rfl⟩ := (lift_eq_err _ _ _).1 h
      · exact .inr ⟨url, er, rfl, rfl, hr, rfl⟩
      · exact .inl ⟨editable, rest, er, rfl, hr, rfl⟩
    · rcases extra_action_err ext distributions editables h with h | ⟨-, h⟩
      · exact .inl h
      · split at h <;> cases h
    · rcases extra_action_err ext distributions editables h with h | ⟨he, h⟩
      · exact .inl h
      · obtain ⟨er, hr, rfl⟩ := (lift_eq_err _ _ _).1 h
        exact .inr ⟨url, er, rfl, he, hr, rfl⟩
  | _ => cases h

/-- The node that an entry's action adds belongs to the entry when it is a base entry,
and there is none otherwise. -/
theorem added_rel {e : PubGrubPackage × V} {a : NodeAction V}
    (h : package_action ext pins packages distributions preferences editables e = ok a) :
    Option.Rel (fun x y => y.1 = x.1 ∧ BaseDist ext pins editables x.1 x.2.1 x.2.2 y.2.1 ∧
        y.2.2 = base_digests packages distributions preferences x.1 x.2.1 x.2.2 y.2.1)
      (base_entry e) a.added := by
  obtain ⟨p, v⟩ := e
  cases p with
  | Package n x u =>
    cases x with
    | none =>
      obtain ⟨d, hd, rfl⟩ := package_action_base ext pins packages distributions preferences editables h
      exact .some ⟨rfl, hd, rfl⟩
    | some x =>
      obtain ⟨m, -, ⟨-, rfl⟩ | ⟨-, d, -, rfl⟩⟩ :=
        package_action_extra ext pins packages distributions preferences editables h <;> exact .none
  | _ =>
    rw [package_action_other ext pins packages distributions preferences editables (by simp) v] at h
    cases h; exact .none

/-- An entry's action enables its extra exactly when the entry is of an extra's group and
the consulted metadata declares the extra. -/
theorem enabled_eq {e : PubGrubPackage × V} {a : NodeAction V}
    (h : package_action ext pins packages distributions preferences editables e = ok a) :
    a.enabled = ((extra_entry e).filter (provides_extra distributions editables)).map
      fun x => (x.1, x.2.1) := by
  obtain ⟨p, v⟩ := e
  cases p with
  | Package n x u =>
    cases x with
    | none =>
      obtain ⟨d, -, rfl⟩ := package_action_base ext pins packages distributions preferences editables h
      rfl
    | some x =>
      obtain ⟨m, hm, ⟨hx, rfl⟩ | ⟨hx, d, -, rfl⟩⟩ :=
        package_action_extra ext pins packages distributions preferences editables h <;>
        simp [NodeAction.enabled, extra_entry, Option.filter_some, provides_extra, hm, hx]
  | _ =>
    rw [package_action_other ext pins packages distributions preferences editables (by simp) v] at h
    cases h; rfl

/-- An entry's action reports a missing extra exactly when the entry is of an extra's
group whose consulted metadata does not declare the extra. -/
theorem diagnostic_rel {e : PubGrubPackage × V} {a : NodeAction V}
    (h : package_action ext pins packages distributions preferences editables e = ok a) :
    Option.Rel (fun x d => ∃ dist : ResolvedDist V, dist.name = x.1 ∧ d = .MissingExtra dist x.2.1)
      ((extra_entry e).filter fun x => !provides_extra distributions editables x) a.diagnostic := by
  obtain ⟨p, v⟩ := e
  cases p with
  | Package n x u =>
    cases x with
    | none =>
      obtain ⟨d, -, rfl⟩ := package_action_base ext pins packages distributions preferences editables h
      exact .none
    | some x =>
      obtain ⟨m, hm, ⟨hx, rfl⟩ | ⟨hx, d, hd, rfl⟩⟩ :=
        package_action_extra ext pins packages distributions preferences editables h
      · have : provides_extra distributions editables (n, x, u, v) = true := by
          simp [provides_extra, hm, hx]
        simp only [extra_entry, Option.filter_some, this, Bool.not_true, Bool.false_eq_true,
          if_false, NodeAction.diagnostic]
        exact .none
      · have : provides_extra distributions editables (n, x, u, v) = false := by
          simp [provides_extra, hm, hx]
        simp only [extra_entry, Option.filter_some, this, Bool.not_false, if_true,
          NodeAction.diagnostic]
        exact .some ⟨d, hd, rfl⟩
  | _ =>
    rw [package_action_other ext pins packages distributions preferences editables (by simp) v] at h
    cases h; exact .none

end Actions

/-! ## The node pass -/

section NodePass

variable {ext : Externals} {pins : FilePins V}
  {packages : PackageName → Option (VersionsResponse V)}
  {distributions : VersionId V → Option MetadataResponse} {preferences : Preferences V}
  {editables : Editables} {entries : List (PubGrubPackage × V)} {b : Builder V}

/-- The nodes of the node pass, with their names and hashes, one for each base entry. -/
theorem node_pass_added
    (h : node_pass ext pins packages distributions preferences editables entries = ok b) :
    ∃ adds : List (PackageName × ResolvedDist V × Option (List HashDigest)),
      List.Forall₂ (fun x y => y.1 = x.1 ∧ BaseDist ext pins editables x.1 x.2.1 x.2.2 y.2.1 ∧
          y.2.2 = base_digests packages distributions preferences x.1 x.2.1 x.2.2 y.2.1)
        (base_entries entries) adds ∧
      b.petgraph.nodes = adds.map (fun y => y.2.1) ∧ b.petgraph.edges = [] ∧
      InverseOk b.inverse (adds.map Prod.fst) ∧
      ∀ n, b.hashes.get n = (((adds.filter fun y => y.1 = n).filterMap fun y => y.2.2).getLast?) := by
  obtain ⟨as, has, rfl⟩ := (foldlM_ok_iff _ _ _ _ _).1 h
  refine ⟨as.filterMap NodeAction.added,
    List.rel_filterMap (fun e a hea => added_rel ext pins packages distributions preferences
      editables hea) has, by simp [foldl_nodes, Builder.empty, Graph.empty],
    by simp [foldl_edges, Builder.empty, Graph.empty], ?_, fun n => by simp [foldl_hashes, Builder.empty]⟩
  simpa using inverseOk_foldl as Builder.empty [] rfl ⟨by simp [Builder.empty], by simp⟩

/-- The extras enabled by the node pass, one for each entry of an extra's group whose
metadata declares it. -/
theorem node_pass_enabled
    (h : node_pass ext pins packages distributions preferences editables entries = ok b) :
    (∀ n, (b.extras.get n).getD [] =
      (((extra_entries entries).filter (provides_extra distributions editables)).filter
        fun x => x.1 = n).map fun x => x.2.1) ∧
    (∀ n, b.extras.get n ≠ none →
      ∃ x ∈ (extra_entries entries).filter (provides_extra distributions editables), x.1 = n) ∧
    b.extras.total = ((extra_entries entries).filter (provides_extra distributions editables)).length := by
  obtain ⟨as, has, rfl⟩ := (foldlM_ok_iff _ _ _ _ _).1 h
  have he : as.filterMap NodeAction.enabled =
      ((extra_entries entries).filter (provides_extra distributions editables)).map
        fun x => (x.1, x.2.1) := by
    rw [extra_entries, ← filterMap_filter_map]
    exact (filterMap_eq_of_forall₂ has fun e a hea => (enabled_eq ext pins packages distributions
      preferences editables hea).symm).symm
  refine ⟨fun n => ?_, fun n hn => ?_, ?_⟩
  · rw [foldl_extras, he, List.filter_map, List.map_map]
    simp [Builder.empty, Function.comp_def]
  · by_contra hx
    refine hn (foldl_extras_none as _ n rfl fun y hy hyn => hx ?_)
    rw [he, List.mem_map] at hy
    obtain ⟨x, hx, rfl⟩ := hy
    exact ⟨x, hx, hyn⟩
  · rw [foldl_extras_total, he]; simp [Builder.empty, FxHashMap.total, FxHashMap.empty]

/-- The inverse map of the node pass knows the names of the base entries and no other,
in a graph with one node for each base entry and no edge. -/
theorem node_pass_inverse
    (h : node_pass ext pins packages distributions preferences editables entries = ok b) :
    InverseOk b.inverse ((base_entries entries).map Prod.fst) ∧
      b.petgraph.nodes.map ResolvedDist.name = (base_entries entries).map Prod.fst ∧
      b.petgraph.edges = [] := by
  obtain ⟨adds, hadds, hn, he, hinv, -⟩ := node_pass_added h
  have hnames : adds.map Prod.fst = (base_entries entries).map Prod.fst :=
    (map_eq_of_forall₂ hadds fun _ _ h => h.1.symm).symm
  refine ⟨hnames ▸ hinv, ?_, he⟩
  rw [hn, List.map_map]
  exact (map_eq_of_forall₂ hadds fun _ _ h => (baseDist_name ext pins editables h.2.1).symm).symm

/-- The node that the inverse map of the node pass gives a name has that name. -/
theorem node_pass_node
    (hb : node_pass ext pins packages distributions preferences editables entries = ok b)
    {n : PackageName} {i : NodeIndex} (hi : b.inverse.get n = some i) :
    ∃ a, b.petgraph.nodes[i]? = some a ∧ a.name = n := by
  obtain ⟨hinv, hnames, -⟩ := node_pass_inverse hb
  have := hinv.1 n i hi
  rwa [← hnames, List.getElem?_map, Option.map_eq_some'] at this

/-- When no two base entries share a name, the node pass's graph has one node for each base
entry, which holds its distribution, and the hashes of its name are those of the entry. -/
theorem node_pass_nodes (hunique : ((base_entries entries).map Prod.fst).Nodup)
    (h : node_pass ext pins packages distributions preferences editables entries = ok b) :
    List.Forall₂ (fun x dist => BaseDist ext pins editables x.1 x.2.1 x.2.2 dist ∧
        b.hashes.get x.1 = base_digests packages distributions preferences x.1 x.2.1 x.2.2 dist)
      (base_entries entries) b.petgraph.nodes := by
  obtain ⟨adds, hadds, hn, -, -, hh⟩ := node_pass_added h
  have hnd : (adds.map Prod.fst).Nodup :=
    (map_eq_of_forall₂ hadds fun _ _ h => h.1.symm) ▸ hunique
  rw [hn, List.forall₂_map_right_iff]
  refine (forall₂_mem_right hadds).imp fun x y ⟨⟨hxy, hd, hds⟩, hy⟩ => ⟨hd, ?_⟩
  have hf : adds.filter (fun z => z.1 = x.1) = [y] := hxy ▸ filter_fst_eq_singleton hnd hy
  rw [hh, hf, ← hds]
  obtain ⟨_, _, _ | _⟩ := y <;> rfl

theorem mem_base_entries {entries : List (PubGrubPackage × V)}
    {x : PackageName × Option VerbatimUrl × V} :
    x ∈ base_entries entries ↔ (.Package x.1 none x.2.1, x.2.2) ∈ entries := by
  obtain ⟨n, u, v⟩ := x
  simp only [base_entries, List.mem_filterMap]
  constructor
  · rintro ⟨⟨p, w⟩, hp, he⟩
    cases p with
    | Package m y u' => cases y <;> simp_all [base_entry]
    | _ => simp [base_entry] at he
  · exact fun h => ⟨_, h, rfl⟩

theorem mem_extra_entries {entries : List (PubGrubPackage × V)}
    {x : PackageName × ExtraName × Option VerbatimUrl × V} :
    x ∈ extra_entries entries ↔ (.Package x.1 (some x.2.1) x.2.2.1, x.2.2.2) ∈ entries := by
  obtain ⟨n, e, u, v⟩ := x
  simp only [extra_entries, List.mem_filterMap]
  constructor
  · rintro ⟨⟨p, w⟩, hp, he⟩
    cases p with
    | Package m y u' => cases y <;> simp_all [extra_entry]
    | _ => simp [extra_entry] at he
  · exact fun h => ⟨_, h, rfl⟩

/-- The diagnostics of the node pass, one for each entry of an extra's group whose
metadata does not declare it. -/
theorem node_pass_diagnostics
    (h : node_pass ext pins packages distributions preferences editables entries = ok b) :
    List.Forall₂ (fun x d => ∃ dist : ResolvedDist V, dist.name = x.1 ∧ d = .MissingExtra dist x.2.1)
      ((extra_entries entries).filter fun x => !provides_extra distributions editables x)
      b.diagnostics := by
  obtain ⟨as, has, rfl⟩ := (foldlM_ok_iff _ _ _ _ _).1 h
  rw [foldl_diagnostics]
  have := List.rel_filterMap (fun e a hea => diagnostic_rel ext pins packages distributions
    preferences editables hea) has
  rw [← List.map_id ((extra_entries entries).filter _), extra_entries, ← filterMap_filter_map]
  simpa [Builder.empty] using this

end NodePass

/-! ## The nodes and the extras of the graph -/

section Graph

variable [LinearOrder V] {ext : Externals} {selection : SelectedDependencies V}
  {pins : FilePins V} {packages : PackageName → Option (VersionsResponse V)}
  {distributions : VersionId V → Option MetadataResponse} {state : State V}
  {preferences : Preferences V} {editables : Editables}

/-- When no two base entries share a name, the graph has one node for each base entry and
no other, in the order of the selection; the inverse map sends each base name to its
node; the node holds the editable's distribution, the pinned one, or the one of the
precise URL; and the hashes of a base name are the lockfile's when it has some, else
those of the first version map that lists some, or of the archive, sorted, and no other
name has hashes. -/
theorem from_state_nodes {g : ResolutionGraph V} {b : Builder V}
    (hunique : ((base_entries selection.entries).map Prod.fst).Nodup)
    (h : from_state ext selection pins packages distributions state preferences editables = ok g)
    (hb : node_pass ext pins packages distributions preferences editables selection.entries = ok b) :
    List.Forall₂ (fun x dist => BaseDist ext pins editables x.1 x.2.1 x.2.2 dist ∧
        RecordedHashes packages distributions preferences x.1 x.2.1 x.2.2 dist (g.hashes.get x.1))
      (base_entries selection.entries) g.petgraph.nodes ∧
    (∀ i x, (base_entries selection.entries)[i]? = some x → b.inverse.get x.1 = some i) ∧
    ∀ n, n ∉ (base_entries selection.entries).map Prod.fst →
      b.inverse.get n = none ∧ g.hashes.get n = none := by
  obtain ⟨b', hb', -, hnodes, hhashes, -⟩ := from_state_ok h
  rw [hb, Outcome.ok.injEq] at hb'
  subst hb'
  obtain ⟨adds, hadds, -, -, -, hh⟩ := node_pass_added hb
  have hnames : adds.map Prod.fst = (base_entries selection.entries).map Prod.fst :=
    (map_eq_of_forall₂ hadds fun _ _ h => h.1.symm).symm
  have hinv := (node_pass_inverse hb).1
  have hn := node_pass_nodes hunique hb
  rw [← hnodes, ← hhashes] at hn
  refine ⟨hn.imp fun x dist h => ⟨h.1, h.2 ▸ recordedHashes_base_digests packages distributions
      preferences x.1 x.2.1 x.2.2 dist⟩,
    fun i x hx => hinv.get_of_getElem? hunique (by rw [List.getElem?_map, hx]; rfl),
    fun n hn' => ⟨?_, ?_⟩⟩
  · cases hj : b.inverse.get n with
    | none => rfl
    | some i => exact absurd (List.getElem?_mem (hinv.1 n i hj)) hn'
  · have : adds.filter (fun y => y.1 = n) = [] :=
      List.filter_eq_nil_iff.2 fun y hy hyn => hn' (hnames ▸ List.mem_map.2 ⟨y, hy, by simpa using hyn⟩)
    rw [hhashes, hh, this]; rfl

theorem from_state_nodes_sample : ∃ (g : ResolutionGraph Nat) (b : Builder Nat),
    ((base_entries sample_selection.entries).map Prod.fst).Nodup ∧
    from_state sample_externals sample_selection sample_pins sample_packages sample_distributions
      sample_state sample_preferences .empty = ok g ∧
    node_pass sample_externals sample_pins sample_packages sample_distributions sample_preferences
      .empty sample_selection.entries = ok b ∧
    List.Forall₂ (fun x dist => BaseDist sample_externals sample_pins .empty x.1 x.2.1 x.2.2 dist ∧
        RecordedHashes sample_packages sample_distributions sample_preferences x.1 x.2.1 x.2.2 dist
          (g.hashes.get x.1))
      (base_entries sample_selection.entries) g.petgraph.nodes ∧
    (∀ i x, (base_entries sample_selection.entries)[i]? = some x → b.inverse.get x.1 = some i) ∧
    ∀ n, n ∉ (base_entries sample_selection.entries).map Prod.fst →
      b.inverse.get n = none ∧ g.hashes.get n = none :=
  ⟨_, _, by decide, rfl, rfl, from_state_nodes (by decide) (rfl : from_state sample_externals
    sample_selection sample_pins sample_packages sample_distributions sample_state
    sample_preferences .empty = _) rfl⟩

/-- When every extra's group has its base package selected at the same version, each
entry of an extra's group either enables its extra once, when the metadata it consults
declares it, or adds one diagnostic naming a distribution of the package; nothing else
writes extras or diagnostics. So every name with extras has a node, every enabled extra
is declared by the metadata of the selected package, and the diagnostics and the enabled
extras together number the entries of extras' groups. -/
theorem from_state_extras {g : ResolutionGraph V}
    (hbase : ∀ n e u v, (PubGrubPackage.Package n (some e) u, v) ∈ selection.entries →
      (PubGrubPackage.Package n none u, v) ∈ selection.entries)
    (h : from_state ext selection pins packages distributions state preferences editables = ok g) :
    (∀ n, (g.extras.get n).getD [] =
      (((extra_entries selection.entries).filter (provides_extra distributions editables)).filter
        fun x => x.1 = n).map fun x => x.2.1) ∧
    List.Forall₂ (fun x d => ∃ dist : ResolvedDist V, dist.name = x.1 ∧ d = .MissingExtra dist x.2.1)
      ((extra_entries selection.entries).filter fun x => !provides_extra distributions editables x)
      g.diagnostics ∧
    (∀ n, g.extras.get n ≠ none → g.contains n) ∧
    (∀ n e, e ∈ (g.extras.get n).getD [] → ∃ u v metadata,
      (PubGrubPackage.Package n none u, v) ∈ selection.entries ∧
      consulted_metadata distributions editables n (extra_dist n u v) = some metadata ∧
      e ∈ metadata.provides_extras) ∧
    g.diagnostics.length + g.extras.total = (extra_entries selection.entries).length := by
  obtain ⟨b, hb, -, hnodes, -, hextras, hdiag, -⟩ := from_state_ok h
  obtain ⟨hget, hkeys, htotal⟩ := node_pass_enabled hb
  have hd := node_pass_diagnostics hb
  obtain ⟨adds, hadds, hn, -⟩ := node_pass_added hb
  have hprov : ∀ x, provides_extra distributions editables x = true → ∃ metadata,
      consulted_metadata distributions editables x.1 (extra_dist x.1 x.2.2.1 x.2.2.2) = some metadata ∧
        x.2.1 ∈ metadata.provides_extras := by
    intro x hx
    unfold provides_extra at hx
    split at hx
    · exact ⟨_, ‹_›, of_decide_eq_true hx⟩
    · cases hx
  rw [hextras, hdiag]
  refine ⟨hget, hd, fun n hne => ?_, fun n e he => ?_, ?_⟩
  · obtain ⟨x, hx, rfl⟩ := hkeys n hne
    have hbx : (x.1, x.2.2.1, x.2.2.2) ∈ base_entries selection.entries :=
      mem_base_entries.2 (hbase _ _ _ _ (mem_extra_entries.1 (List.mem_filter.1 hx).1))
    obtain ⟨y, hy, hxy, hdist, -⟩ := exists_of_mem_forall₂ hadds hbx
    refine List.any_eq_true.2 ⟨y.2.1, ?_, by simp [baseDist_name ext pins editables hdist]⟩
    rw [hnodes, hn]
    exact List.mem_map_of_mem _ hy
  · rw [hget] at he
    obtain ⟨x, hx0, rfl⟩ := List.mem_map.1 he
    obtain ⟨hx1, hxn⟩ := List.mem_filter.1 hx0
    obtain ⟨hx2, hp⟩ := List.mem_filter.1 hx1
    obtain rfl : x.1 = n := of_decide_eq_true hxn
    obtain ⟨metadata, hm, he⟩ := hprov x hp
    exact ⟨x.2.2.1, x.2.2.2, metadata, hbase _ _ _ _ (mem_extra_entries.1 hx2), hm, he⟩
  · rw [hd.length_eq.symm, htotal, Nat.add_comm]
    exact (List.length_eq_length_filter_add _).symm

theorem from_state_extras_sample : ∃ g : ResolutionGraph Nat,
    (∀ n e u v, (PubGrubPackage.Package n (some e) u, v) ∈ sample_selection.entries →
      (PubGrubPackage.Package n none u, v) ∈ sample_selection.entries) ∧
    from_state sample_externals sample_selection sample_pins sample_packages sample_distributions
      sample_state sample_preferences .empty = ok g ∧
    (∀ n, (g.extras.get n).getD [] =
      (((extra_entries sample_selection.entries).filter
        (provides_extra sample_distributions .empty)).filter fun x => x.1 = n).map fun x => x.2.1) ∧
    List.Forall₂ (fun x d => ∃ dist : ResolvedDist Nat, dist.name = x.1 ∧ d = .MissingExtra dist x.2.1)
      ((extra_entries sample_selection.entries).filter
        fun x => !provides_extra sample_distributions .empty x)
      g.diagnostics ∧
    (∀ n, g.extras.get n ≠ none → g.contains n) ∧
    (∀ n e, e ∈ (g.extras.get n).getD [] → ∃ u v metadata,
      (PubGrubPackage.Package n none u, v) ∈ sample_selection.entries ∧
      consulted_metadata sample_distributions .empty n (extra_dist n u v) = some metadata ∧
      e ∈ metadata.provides_extras) ∧
    g.diagnostics.length + g.extras.total = (extra_entries sample_selection.entries).length := by
  have hbase : ∀ n e u v, (PubGrubPackage.Package n (some e) u, v) ∈ sample_selection.entries →
      (PubGrubPackage.Package n none u, v) ∈ sample_selection.entries := sample_extra_base
  exact ⟨_, hbase, rfl, from_state_extras hbase (rfl : from_state sample_externals
    sample_selection sample_pins sample_packages sample_distributions sample_state
    sample_preferences .empty = _)⟩

end Graph

end uv_resolver.resolution
