-- The data that `ResolutionGraph::from_state` reads: the solver's packages, versions
-- and incompatibilities, the distributions and their metadata, the markers of
-- requirements, and the tables of pins, preferences and editables.
import UvResolution.Basic

namespace uv_resolver

abbrev PackageName := String
abbrev ExtraName := String
/-- A `VerbatimUrl`, by its URL. `VerbatimUrl` compares and hashes by the URL alone; the
text that the user wrote is kept only for editables (`LocalEditable.given`), where `fmt`
reads it. -/
abbrev VerbatimUrl := String
abbrev IndexUrl := String
abbrev ParsedUrlError := String

/-! ## Versions and ranges -/

inductive Bound (V : Type) where
  | Included (v : V)
  | Excluded (v : V)
  | Unbounded
  deriving DecidableEq, Repr

/-- `pubgrub::range::Range`: a union of intervals, in increasing order. -/
structure Range (V : Type) where
  segments : List (Bound V × Bound V)
  deriving DecidableEq, Repr

namespace Range

variable {V : Type} [LinearOrder V]

/-- `within_bounds`: `v` lies below the interval, in it, or above it. -/
def within_bounds (v : V) : Bound V × Bound V → Ordering
  | (lower, upper) =>
    let below_lower_bound := match lower with
      | .Excluded start => decide (v ≤ start)
      | .Included start => decide (v < start)
      | .Unbounded => false
    if below_lower_bound then .lt
    else
      let below_upper_bound := match upper with
        | .Unbounded => true
        | .Included e => decide (v ≤ e)
        | .Excluded e => decide (v < e)
      if below_upper_bound then .eq else .gt

def contains_segments (v : V) : List (Bound V × Bound V) → Bool
  | [] => false
  | segment :: rest =>
    match within_bounds v segment with
    | .lt => false
    | .eq => true
    | .gt => contains_segments v rest

def contains (r : Range V) (v : V) : Bool := contains_segments v r.segments

end Range

/-! ## The solver's packages and state -/

inductive PubGrubPython where
  | Installed
  | Target
  deriving DecidableEq, Repr

/-- `PubGrubPackage`: the root, the Python version, or a package with an optional extra
and an optional URL. A package with an extra stands for the extra's group. -/
inductive PubGrubPackage where
  | Root (name : Option PackageName)
  | Python (python : PubGrubPython)
  | Package (name : PackageName) (extra : Option ExtraName) (url : Option VerbatimUrl)
  deriving DecidableEq, Repr

abbrev IncompId := Nat

/-- `pubgrub::solver::Kind`: where an incompatibility comes from. -/
inductive Kind (V : Type) where
  | NotRoot (package : PubGrubPackage) (version : V)
  | NoVersions (package : PubGrubPackage) (set : Range V)
  | UnavailableDependencies (package : PubGrubPackage) (set : Range V)
  | FromDependencyOf (package : PubGrubPackage) (set : Range V) (dependency : PubGrubPackage)
      (range : Range V)
  | DerivedFrom (cause1 cause2 : IncompId)
  deriving DecidableEq, Repr

/-- An incompatibility, by its kind; its terms are left out. -/
structure Incompatibility (V : Type) where
  kind : Kind V

/-- The solver's state: for each package the ids of the incompatibilities that mention
it, and the arena they point into. Every id comes from the arena, so reading it never
fails. -/
structure State (V : Type) where
  incompatibilities : FxHashMap PubGrubPackage (List IncompId)
  incompatibility_store : IncompId → Incompatibility V

/-- `SelectedDependencies`: the version of each selected package. -/
abbrev SelectedDependencies (V : Type) := FxHashMap PubGrubPackage V

/-! ## Hashes -/

inductive HashAlgorithm where
  | Md5
  | Sha256
  | Sha384
  | Sha512
  deriving DecidableEq, Repr

def HashAlgorithm.rank : HashAlgorithm → Nat
  | .Md5 => 0
  | .Sha256 => 1
  | .Sha384 => 2
  | .Sha512 => 3

def HashAlgorithm.to_string : HashAlgorithm → String
  | .Md5 => "md5"
  | .Sha256 => "sha256"
  | .Sha384 => "sha384"
  | .Sha512 => "sha512"

structure HashDigest where
  algorithm : HashAlgorithm
  digest : String
  deriving DecidableEq, Repr

/-- The order `HashDigest` derives: by algorithm, then by digest. -/
def HashDigest.le (a b : HashDigest) : Bool :=
  a.algorithm.rank < b.algorithm.rank ||
    a.algorithm.rank == b.algorithm.rank && decide (a.digest ≤ b.digest)

def HashDigest.to_string (h : HashDigest) : String := h.algorithm.to_string ++ ":" ++ h.digest

/-- `sort_unstable` on digests. Digests that compare equal are equal, so every sort gives
this list. -/
def sort_digests (digests : List HashDigest) : List HashDigest := digests.mergeSort HashDigest.le

theorem HashDigest.le_is_trans (a b c : HashDigest) (hab : a.le b) (hbc : b.le c) : a.le c := by
  simp only [HashDigest.le, Bool.or_eq_true, Bool.and_eq_true, decide_eq_true_eq,
    beq_iff_eq] at hab hbc ⊢
  rcases hab with hab | ⟨hab, hab'⟩ <;> rcases hbc with hbc | ⟨hbc, hbc'⟩
  · exact .inl (hab.trans hbc)
  · exact .inl (hbc ▸ hab)
  · exact .inl (hab ▸ hbc)
  · exact .inr ⟨hab.trans hbc, hab'.trans hbc'⟩

theorem HashDigest.le_is_total (a b : HashDigest) : a.le b || b.le a := by
  simp only [HashDigest.le, Bool.or_eq_true, Bool.and_eq_true, decide_eq_true_eq, beq_iff_eq]
  rcases Nat.lt_trichotomy a.algorithm.rank b.algorithm.rank with h | h | h
  · exact .inl (.inl h)
  · rcases le_total a.digest b.digest with hd | hd
    · exact .inl (.inr ⟨h, hd⟩)
    · exact .inr (.inr ⟨h.symm, hd⟩)
  · exact .inr (.inl h)

/-! ## Distributions and metadata -/

/-- Modelled from the spec: `VersionId`, the key of a distribution's metadata, from a name
and a version or from a URL. The canonical form of a URL is the URL itself. -/
inductive VersionId (V : Type) where
  | NameVersion (name : PackageName) (version : V)
  | Url (url : String)
  deriving DecidableEq, Repr

def VersionId.from_registry {V : Type} (name : PackageName) (version : V) : VersionId V :=
  .NameVersion name version

def VersionId.from_url {V : Type} (url : VerbatimUrl) : VersionId V := .Url url

inductive VersionOrUrlRef (V : Type) where
  | Version (version : V)
  | Url (url : VerbatimUrl)
  deriving DecidableEq, Repr

/-- A `ResolvedDist`, by what the resolution code reads of it: its name, its version or
URL, and the index it comes from. -/
structure ResolvedDist (V : Type) where
  name : PackageName
  version_or_url : VersionOrUrlRef V
  index : Option IndexUrl
  deriving DecidableEq, Repr

/-- `DistributionMetadata::version_id`. -/
def ResolvedDist.version_id {V : Type} (d : ResolvedDist V) : VersionId V :=
  match d.version_or_url with
  | .Version version => .from_registry d.name version
  | .Url url => .from_url url

inductive PubGrubDistribution (V : Type) where
  | Registry (name : PackageName) (version : V)
  | Url (name : PackageName) (url : VerbatimUrl)

def PubGrubDistribution.from_registry {V : Type} (name : PackageName) (version : V) :
    PubGrubDistribution V := .Registry name version

def PubGrubDistribution.from_url {V : Type} (name : PackageName) (url : VerbatimUrl) :
    PubGrubDistribution V := .Url name url

def PubGrubDistribution.version_id {V : Type} : PubGrubDistribution V → VersionId V
  | .Registry name version => .from_registry name version
  | .Url _ url => .from_url url

/-! ## Markers -/

inductive MarkerValueVersion where
  | ImplementationVersion
  | PythonFullVersion
  | PythonVersion
  deriving DecidableEq, Repr

inductive MarkerValueString where
  | ImplementationName
  | OsName
  | OsNameDeprecated
  | PlatformMachine
  | PlatformMachineDeprecated
  | PlatformPythonImplementation
  | PlatformPythonImplementationDeprecated
  | PythonImplementationDeprecated
  | PlatformRelease
  | PlatformSystem
  | PlatformVersion
  | PlatformVersionDeprecated
  | SysPlatform
  | SysPlatformDeprecated
  deriving DecidableEq, Repr

inductive MarkerValue where
  | MarkerEnvVersion (value : MarkerValueVersion)
  | MarkerEnvString (value : MarkerValueString)
  | Extra
  | QuotedString (value : String)
  deriving DecidableEq, Repr

inductive MarkerOperator where
  | Equal
  | NotEqual
  | GreaterThan
  | GreaterEqual
  | LessThan
  | LessEqual
  | TildeEqual
  | In
  | NotIn
  deriving DecidableEq, Repr

structure MarkerExpression where
  l_value : MarkerValue
  operator : MarkerOperator
  r_value : MarkerValue
  deriving DecidableEq, Repr

inductive MarkerTree where
  | Expression (expr : MarkerExpression)
  | And (exprs : List MarkerTree)
  | Or (exprs : List MarkerTree)

mutual

def MarkerTree.decEq : (a b : MarkerTree) → Decidable (a = b)
  | .Expression e, .Expression e' =>
    if h : e = e' then isTrue (h ▸ rfl) else isFalse fun h' => h (by cases h'; rfl)
  | .And ts, .And ts' =>
    match MarkerTree.decEqList ts ts' with
    | isTrue h => isTrue (h ▸ rfl)
    | isFalse h => isFalse fun h' => h (by cases h'; rfl)
  | .Or ts, .Or ts' =>
    match MarkerTree.decEqList ts ts' with
    | isTrue h => isTrue (h ▸ rfl)
    | isFalse h => isFalse fun h' => h (by cases h'; rfl)
  | .Expression _, .And _ | .Expression _, .Or _ | .And _, .Expression _ | .And _, .Or _
  | .Or _, .Expression _ | .Or _, .And _ => isFalse fun h => by cases h

def MarkerTree.decEqList : (a b : List MarkerTree) → Decidable (a = b)
  | [], [] => isTrue rfl
  | t :: ts, t' :: ts' =>
    match MarkerTree.decEq t t', MarkerTree.decEqList ts ts' with
    | isTrue h, isTrue h' => isTrue (h ▸ h' ▸ rfl)
    | isFalse h, _ => isFalse fun h'' => h (List.cons.inj h'').1
    | _, isFalse h' => isFalse fun h'' => h' (List.cons.inj h'').2
  | [], _ :: _ | _ :: _, [] => isFalse fun h => by cases h

end

instance : DecidableEq MarkerTree := MarkerTree.decEq

/-! ## Requirements -/

namespace pep508_rs

inductive VersionOrUrl where
  | VersionSpecifier (specifiers : String)
  | Url (url : VerbatimUrl)
  deriving DecidableEq, Repr

/-- `pep508_rs::Requirement`. -/
structure Requirement where
  name : PackageName
  extras : List ExtraName
  version_or_url : Option VersionOrUrl
  marker : Option MarkerTree
  origin : Option String
  deriving DecidableEq

end pep508_rs

/-- `distribution_types::Requirement`, by its name, extras, marker and origin; its
source is left out. -/
structure Requirement where
  name : PackageName
  extras : List ExtraName
  marker : Option MarkerTree
  origin : Option String
  deriving DecidableEq

/-- `Metadata23`, by the fields the resolution code reads. -/
structure Metadata23 where
  name : PackageName
  requires_dist : List pep508_rs.Requirement
  provides_extras : List ExtraName
  deriving DecidableEq

structure ArchiveMetadata where
  metadata : Metadata23
  hashes : List HashDigest
  deriving DecidableEq

/-- The response of the index for a distribution's metadata; only `Found` is read. -/
inductive MetadataResponse where
  | Found (archive : ArchiveMetadata)
  | InvalidMetadata
  | InvalidStructure
  | Offline
  deriving DecidableEq

/-- A `VersionMap`, by the hashes it lists for each version. -/
structure VersionMap (V : Type) where
  hashes : V → Option (List HashDigest)

inductive VersionsResponse (V : Type) where
  | Found (version_maps : List (VersionMap V))
  | NoIndex
  | Offline
  | NotFound

/-- A `LocalEditable`, by its URL and the text given for that URL (`VerbatimUrl::given`), such
as `.` for `-e .`; the URL's equality and hash ignore the given text. -/
structure LocalEditable where
  url : VerbatimUrl
  given : Option String
  deriving DecidableEq, Repr

/-- `Verbatim for LocalEditable`: the text given for its URL, else the URL. -/
def LocalEditable.verbatim (editable : LocalEditable) : String := editable.given.getD editable.url

/-- `uv_requirements::Requirements`, by its dependencies. -/
structure Requirements where
  dependencies : List Requirement
  deriving DecidableEq

/-- The editables of a resolution, by name (`Editables`). -/
abbrev Editables := FxHashMap PackageName (LocalEditable × Metadata23 × Requirements)

/-- `FilePins`: the file pinned for each name and version. It is filled only by
`FilePins::insert`, which files a candidate's distribution under the candidate's own name
and version. -/
structure FilePins (V : Type) where
  get : PackageName → V → Option (ResolvedDist V)
  get_pinned : ∀ n v d, get n v = some d → d.name = n ∧ d.version_or_url = .Version v

/-- `Preferences`, by the hashes a lockfile recorded for a name and version. -/
structure Preferences (V : Type) where
  match_hashes : PackageName → V → Option (List HashDigest)

inductive Diagnostic (V : Type) where
  | MissingExtra (dist : ResolvedDist V) (extra : ExtraName)
  deriving DecidableEq, Repr

inductive ResolveError where
  | ParsedUrl (err : ParsedUrlError)
  deriving DecidableEq, Repr

/-- The functions of uv's other crates that the resolution code calls, each taken as given. -/
structure Externals where
  /-- Why `Dist::from_url` rejects a URL, if it does. -/
  parse_url : VerbatimUrl → Option ParsedUrlError
  /-- Why `Dist::from_editable` rejects an editable, if it does. -/
  parse_editable : LocalEditable → Option ParsedUrlError
  /-- `to_precise`: the URL with its Git reference resolved to a commit, when known. -/
  to_precise : VerbatimUrl → Option String
  apply_redirect : VerbatimUrl → String → VerbatimUrl
  /-- `Requirement::from_pep508`. -/
  from_pep508 : pep508_rs.Requirement → Except ParsedUrlError Requirement

namespace Dist

variable {V : Type}

def from_url (ext : Externals) (name : PackageName) (url : VerbatimUrl) :
    Except ParsedUrlError (ResolvedDist V) :=
  match ext.parse_url url with
  | some e => .error e
  | none => .ok { name, version_or_url := .Url url, index := none }

def from_editable (ext : Externals) (name : PackageName) (editable : LocalEditable) :
    Except ParsedUrlError (ResolvedDist V) :=
  match ext.parse_editable editable with
  | some e => .error e
  | none => .ok { name, version_or_url := .Url editable.url, index := none }

theorem from_url_ok {ext : Externals} {name : PackageName} {url : VerbatimUrl}
    {d : ResolvedDist V} (h : from_url ext name url = .ok d) :
    d = { name, version_or_url := .Url url, index := none } := by
  unfold from_url at h; split at h <;> cases h; rfl

theorem from_editable_ok {ext : Externals} {name : PackageName} {editable : LocalEditable}
    {d : ResolvedDist V} (h : from_editable ext name editable = .ok d) :
    d = { name, version_or_url := .Url editable.url, index := none } := by
  unfold from_editable at h; split at h <;> cases h; rfl

end Dist

end uv_resolver
