-- `NamedRequirementsResolver::resolve` (unnamed.rs, lines 62 to 313): the name of each
-- unnamed requirement, from its URL's file name, its project's static metadata or a build
-- of its source. A `pyproject.toml` is read whole by serde's derive. A file URL that
-- `to_file_path` rejects panics; the requirement parser gives only local file URLs. The
-- calls run concurrently over one shared index and stop only at the build's await, so a
-- run is a schedule of polls.
import UvResolution.Types

namespace uv_requirements.unnamed

open uv_resolver Outcome

/-! ## Requirements and sources -/

abbrev Error := String

abbrev PathBuf := String

/-- `pep508_rs::Scheme`, by the schemes that `resolve_requirement` tells apart; `Other`
stands for the rest. -/
inductive Scheme where
  | File
  | Http
  | Https
  | GitSsh
  | GitHttps
  | Other
  deriving DecidableEq, Repr

structure UnnamedRequirement where
  url : VerbatimUrl
  extras : List ExtraName
  marker : Option MarkerTree
  origin : Option String
  deriving DecidableEq

/-- `UnresolvedRequirement`: a requirement with a name, or one given by its URL alone. -/
inductive UnresolvedRequirement where
  | Named (requirement : Requirement)
  | Unnamed (requirement : UnnamedRequirement)
  deriving DecidableEq

/-- `SourceUrl`: a source to build, by its URL and, for a local one, its path. -/
inductive SourceUrl where
  | Direct (url : VerbatimUrl)
  | Git (url : VerbatimUrl)
  | Path (url : VerbatimUrl) (path : PathBuf)
  | Directory (url : VerbatimUrl) (path : PathBuf)
  deriving DecidableEq

def SourceUrl.url : SourceUrl → VerbatimUrl
  | .Direct url => url
  | .Git url => url
  | .Path url _ => url
  | .Directory url _ => url

/-- `Project`: the `project` table of a `pyproject.toml`. -/
structure Project where
  name : PackageName

structure ToolPoetry where
  name : Option PackageName

structure Tool where
  poetry : Option ToolPoetry

/-- `PyProjectToml`: the tables of a `pyproject.toml` that name a project. -/
structure PyProjectToml where
  project : Option Project
  tool : Option Tool

/-- A TOML value as the `toml` crate parses a document: a string, a table of keys (a
document never repeats a key), or a value of another type. -/
inductive Toml where
  | String (value : String)
  | Table (entries : List (String × Toml))
  | Other

/-- A parsed `setup.cfg` (`configparser::ini::Ini`): the keys of each section, with their
values when they have one. -/
structure Ini where
  get : String → Option (String → Option (Option String))

/-- The functions of other crates and of the system that `resolve_requirement` calls, each
taken as given: `Url::path`, `Path::extension`, `VerbatimUrl::filename`, the names that
`WheelFilename::from_str` and `SourceDistFilename::parsed_normalized_filename` parse,
`Scheme::parse`, `Url::to_file_path` (`none` for its error), `Path::is_dir`, `Path::join`,
`fs_err::read` and `read_to_string`, the name `Metadata10::parse_pkg_info` parses, the table
that `toml::from_str` parses before it deserializes, the `Ini` reader of `setup.cfg`,
`PackageName::from_str`, `Requirement::from_pep508`, and `build_wheel_metadata` with the
hashes that `HashStrategy::get_url` gives. -/
structure Context where
  path : VerbatimUrl → PathBuf
  extension : PathBuf → Option String
  filename : VerbatimUrl → Except Error String
  wheel_filename : String → Except Error PackageName
  sdist_filename : String → Option PackageName
  scheme : VerbatimUrl → Option Scheme
  to_file_path : VerbatimUrl → Option PathBuf
  is_dir : PathBuf → Bool
  join : PathBuf → String → PathBuf
  read : PathBuf → Option String
  parse_pkg_info : String → Option PackageName
  parse_toml : String → Option (List (String × Toml))
  parse_setup_cfg : String → Option Ini
  package_name : String → Option PackageName
  from_pep508 : pep508_rs.Requirement → Except Error Requirement
  build_wheel_metadata : SourceUrl → Except Error ArchiveMetadata

variable (cx : Context)

def eq_ignore_ascii_case (a b : String) : Bool :=
  a.toList.map Char.toLower == b.toList.map Char.toLower

/-- The requirement that every arm of `resolve_requirement` returns, under the name it found. -/
def UnnamedRequirement.named (requirement : UnnamedRequirement) (name : PackageName) :
    pep508_rs.Requirement :=
  { name, extras := requirement.extras, version_or_url := some (.Url requirement.url),
    marker := requirement.marker, origin := requirement.origin }

/-! ## Static metadata -/

/-- `PackageName`'s `Deserialize`: a string that `PackageName::from_str` accepts. -/
def deserialize_package_name : Toml → Option PackageName
  | .String name => cx.package_name name
  | _ => none

/-- A field of type `Option` as serde's derive reads it from a table: absent, it is `None`;
present, it must deserialize, or the whole struct fails. -/
def optional_field {α : Type} (table : List (String × Toml)) (key : String)
    (deserialize : Toml → Option α) : Option (Option α) :=
  match table.lookup key with
  | none => some none
  | some value => (deserialize value).map some

/-- The derived `Deserialize` of `Project`: a table with a `name`, which is required. -/
def Project.deserialize : Toml → Option Project
  | .Table table => ((table.lookup "name").bind (deserialize_package_name cx)).map Project.mk
  | _ => none

def ToolPoetry.deserialize : Toml → Option ToolPoetry
  | .Table table => (optional_field table "name" (deserialize_package_name cx)).map ToolPoetry.mk
  | _ => none

def Tool.deserialize : Toml → Option Tool
  | .Table table => (optional_field table "poetry" (ToolPoetry.deserialize cx)).map Tool.mk
  | _ => none

/-- `toml::from_str::<PyProjectToml>` (lines 289 to 313): the document parsed, then read by
the derived `Deserialize`, which ignores the keys that the structs do not name. -/
def PyProjectToml.from_str (contents : String) : Option PyProjectToml := do
  let table ← cx.parse_toml contents
  let project ← optional_field table "project" (Project.deserialize cx)
  let tool ← optional_field table "tool" (Tool.deserialize cx)
  pure { project, tool }

/-- The name in a directory's `PKG-INFO` (lines 136 to 153). -/
def pkg_info_name (path : PathBuf) : Option PackageName :=
  (cx.read (cx.join path "PKG-INFO")).bind cx.parse_pkg_info

/-- The name in a directory's `pyproject.toml` (lines 155 to 196): the `project` table's,
else Poetry's. -/
def pyproject_name (path : PathBuf) : Option PackageName :=
  match (cx.read (cx.join path "pyproject.toml")).bind (PyProjectToml.from_str cx) with
  | some pyproject =>
    match pyproject.project with
    | some project => some project.name
    | none => (pyproject.tool.bind Tool.poetry).bind ToolPoetry.name
  | none => none

/-- The `name` of the `[metadata]` section of a directory's `setup.cfg`, when
`PackageName::from_str` accepts it (lines 198 to 225). -/
def setup_cfg_name (path : PathBuf) : Option PackageName :=
  match (cx.read (cx.join path "setup.cfg")).bind cx.parse_setup_cfg with
  | some setup_cfg =>
    match setup_cfg.get "metadata" with
    | some metadata =>
      match metadata "name" with
      | some (some name) => cx.package_name name
      | _ => none
    | none => none
  | none => none

/-- The name in a project directory's static metadata (lines 134 to 225): its `PKG-INFO`,
then its `pyproject.toml`, then its `setup.cfg`. -/
def static_metadata_name (path : PathBuf) : Option PackageName :=
  (pkg_info_name cx path).or ((pyproject_name cx path).or (setup_cfg_name cx path))

/-! ## The source of a requirement -/

/-- What `resolve_requirement` finds from the URL before it consults the index (lines 91
to 244): a name from the URL's file name or the project's static metadata, or the source
to build. -/
def requirement_source (url : VerbatimUrl) : Outcome Error (PackageName ⊕ SourceUrl) :=
  if (cx.extension (cx.path url)).any (eq_ignore_ascii_case · "whl") then do
    let filename ← lift id (cx.filename url)
    let name ← lift id (cx.wheel_filename filename)
    pure (.inl name)
  else
    match (cx.filename url).toOption.bind cx.sdist_filename with
    | some name => pure (.inl name)
    | none =>
      match cx.scheme url with
      | some .File =>
        match cx.to_file_path url with
        | none => .panic "URL to be a file path: ()"
        | some path =>
          if cx.is_dir path then
            match static_metadata_name cx path with
            | some name => pure (.inl name)
            | none => pure (.inr (.Directory url path))
          else pure (.inr (.Path url path))
      | some .Http | some .Https => pure (.inr (.Direct url))
      | some .GitSsh | some .GitHttps => pure (.inr (.Git url))
      | _ => .err ("Unsupported scheme for unnamed requirement: " ++ url)

/-! ## The index -/

variable {V : Type} [DecidableEq V]

def SourceUrl.version_id (source : SourceUrl) : VersionId V := .from_url source.url

abbrev InMemoryIndex (V : Type) := FxHashMap (VersionId V) MetadataResponse

/-- The name in the metadata that the index holds for a source (lines 249 to 258). -/
def indexed_name (index : InMemoryIndex V) (source : SourceUrl) : Option PackageName :=
  match index.get source.version_id with
  | some (.Found archive) => some archive.metadata.name
  | _ => none

/-- `resolve_requirement`, run from its start to its end on an index that no other call
changes meanwhile; it returns the index with the metadata it inserted. -/
def resolve_requirement (requirement : UnnamedRequirement) (index : InMemoryIndex V) :
    Outcome Error (pep508_rs.Requirement × InMemoryIndex V) := do
  match ← requirement_source cx requirement.url with
  | .inl name => pure (requirement.named name, index)
  | .inr source =>
    match indexed_name index source with
    | some name => pure (requirement.named name, index)
    | none =>
      let archive ← lift id (cx.build_wheel_metadata source)
      pure (requirement.named archive.metadata.name,
        index.insert source.version_id (.Found archive))

/-! ## Concurrent calls -/

/-- A call of `resolve`'s closure between two polls: not polled yet, suspended at the await
of `build_wheel_metadata` for a source, or finished. -/
inductive Task where
  | Start
  | Building (requirement : UnnamedRequirement) (source : SourceUrl)
  | Done (result : Except Error Requirement)

def finish (requirement : UnnamedRequirement) (name : PackageName) : Except Error Requirement :=
  cx.from_pep508 (requirement.named name)

/-- One poll of a call on the shared index. The first runs the call to the build's await or
to its end; the one after the build runs it to its end and inserts the built metadata. A
panic ends the poll with its message. -/
def poll (entry : UnresolvedRequirement) (task : Task) (index : InMemoryIndex V) :
    Except String (Task × InMemoryIndex V) :=
  match task with
  | .Start =>
    match entry with
    | .Named requirement => .ok (.Done (.ok requirement), index)
    | .Unnamed requirement =>
      match requirement_source cx requirement.url with
      | .panic msg => .error msg
      | .err e => .ok (.Done (.error e), index)
      | .ok (.inl name) => .ok (.Done (finish cx requirement name), index)
      | .ok (.inr source) =>
        match indexed_name index source with
        | some name => .ok (.Done (finish cx requirement name), index)
        | none => .ok (.Building requirement source, index)
  | .Building requirement source =>
    match cx.build_wheel_metadata source with
    | .error e => .ok (.Done (.error e), index)
    | .ok archive => .ok (.Done (finish cx requirement archive.metadata.name),
        index.insert source.version_id (.Found archive))
  | .Done result => .ok (.Done result, index)

/-- `FuturesOrdered` and `try_collect`: the results in the order of the requirements, up to
the first error; `none` while the next result in that order is not there. -/
def try_collect : List Task → Option (Except Error (List Requirement))
  | [] => some (.ok [])
  | .Done (.ok requirement) :: tasks =>
    (try_collect tasks).map fun result => result.map (requirement :: ·)
  | .Done (.error e) :: _ => some (.error e)
  | _ :: _ => none

structure Run (V : Type) where
  index : InMemoryIndex V
  tasks : List Task

/-- One poll of the call at a position; once `try_collect` has its result, the calls are
dropped and nothing is polled. -/
def step (entries : List UnresolvedRequirement) (run : Run V) (i : Nat) : Except String (Run V) :=
  if (try_collect run.tasks).isSome then .ok run
  else
    match entries[i]?, run.tasks[i]? with
    | some entry, some task =>
      match poll cx entry task run.index with
      | .ok (task, index) => .ok ⟨index, run.tasks.set i task⟩
      | .error msg => .error msg
    | _, _ => .ok run

def run (entries : List UnresolvedRequirement) : List Nat → Run V → Except String (Run V)
  | [], r => .ok r
  | i :: schedule, r =>
    match step cx entries r i with
    | .ok r => run entries schedule r
    | .error msg => .error msg

/-- `NamedRequirementsResolver::resolve` under a schedule of polls: a panic, or the result
of `try_collect` once it has one. -/
def resolve (entries : List UnresolvedRequirement) (index : InMemoryIndex V)
    (schedule : List Nat) : Option (Outcome Error (List Requirement)) :=
  match run cx entries schedule ⟨index, entries.map fun _ => .Start⟩ with
  | .error msg => some (.panic msg)
  | .ok r => (try_collect r.tasks).map (lift id)

/-- Modelled from the spec: the requirements resolved one after another in their order,
each on the index that the ones before it left, up to the first failure. -/
def resolve_in_order :
    List UnresolvedRequirement → InMemoryIndex V → Outcome Error (List Requirement)
  | [], _ => ok []
  | .Named requirement :: entries, index => do
    let requirements ← resolve_in_order entries index
    pure (requirement :: requirements)
  | .Unnamed requirement :: entries, index => do
    let (resolved, index) ← resolve_requirement cx requirement index
    let requirement ← lift id (cx.from_pep508 resolved)
    let requirements ← resolve_in_order entries index
    pure (requirement :: requirements)

/-! ## One call alone -/

/-- The name that a source gets on an index: the one in the metadata the index holds, or
else the one its build gives. -/
def lookup (index : InMemoryIndex V) (source : SourceUrl) : Except Error PackageName :=
  match indexed_name index source with
  | some name => .ok name
  | none => (cx.build_wheel_metadata source).map fun archive => archive.metadata.name

/-- The name that a call finds for its URL on an index that no other call changes meanwhile. -/
def name_of (index : InMemoryIndex V) (url : VerbatimUrl) : Outcome Error PackageName := do
  match ← requirement_source cx url with
  | .inl name => pure name
  | .inr source => lift id (lookup cx index source)

/-- The index that a call leaves when it runs alone: the built metadata inserted, if it
built. -/
def recorded (index : InMemoryIndex V) (url : VerbatimUrl) : InMemoryIndex V :=
  match requirement_source cx url with
  | .ok (.inr source) =>
    match indexed_name index source, cx.build_wheel_metadata source with
    | none, .ok archive => index.insert source.version_id (.Found archive)
    | _, _ => index
  | _ => index

/-- What the closure of `resolve` gives for an entry when it runs alone on an index. -/
def resolved (index : InMemoryIndex V) : UnresolvedRequirement → Outcome Error Requirement
  | .Named requirement => ok requirement
  | .Unnamed requirement => do
    let name ← name_of cx index requirement.url
    lift id (finish cx requirement name)

def sequence : List (Outcome Error Requirement) → Outcome Error (List Requirement)
  | [] => ok []
  | x :: xs => do
    let requirement ← x
    let requirements ← sequence xs
    pure (requirement :: requirements)

/-- A call run alone finds the name of its URL and leaves the index with what it built. -/
theorem resolve_requirement_eq (requirement : UnnamedRequirement) (index : InMemoryIndex V) :
    resolve_requirement cx requirement index = name_of cx index requirement.url >>= fun name =>
      ok (requirement.named name, recorded cx index requirement.url) := by
  unfold resolve_requirement name_of recorded lookup
  cases requirement_source cx requirement.url with
  | ok x =>
    cases x with
    | inl name => rfl
    | inr source =>
      simp only [ok_bind]
      cases hi : indexed_name index source with
      | some name => rfl
      | none => cases cx.build_wheel_metadata source <;> rfl
  | err e => rfl
  | panic m => rfl

theorem requirement_source_url {url : VerbatimUrl} {source : SourceUrl}
    (h : requirement_source cx url = ok (.inr source)) : source.url = url := by
  unfold requirement_source at h
  split at h
  · simp only [bind_eq_ok] at h
    obtain ⟨_, -, _, -, h⟩ := h
    cases h
  · repeat' split at h
    all_goals cases h <;> rfl

theorem resolve_requirement_eq_ok {requirement : UnnamedRequirement}
    {index index' : InMemoryIndex V} {q : pep508_rs.Requirement} :
    resolve_requirement cx requirement index = ok (q, index') ↔
      ∃ name, name_of cx index requirement.url = ok name ∧ q = requirement.named name ∧
        index' = recorded cx index requirement.url := by
  rw [resolve_requirement_eq, bind_eq_ok]
  simp only [Outcome.ok.injEq, Prod.mk.injEq, eq_comm]

theorem indexed_name_recorded {index : InMemoryIndex V} {url : VerbatimUrl} {source : SourceUrl}
    {name : PackageName} (hs : requirement_source cx url = ok (.inr source))
    (hl : lookup cx index source = .ok name) :
    indexed_name (recorded cx index url) source = some name := by
  unfold lookup at hl
  simp only [recorded, hs]
  cases hi : indexed_name index source with
  | some name' => simpa [hi] using hl
  | none =>
    cases hb : cx.build_wheel_metadata source with
    | error e => simp [hi, hb, Except.map] at hl
    | ok archive =>
      simp only [hi, hb, Except.map, Except.ok.injEq] at hl
      simp [indexed_name, hl]

theorem recorded_eq_self {index : InMemoryIndex V} {url : VerbatimUrl} {source : SourceUrl}
    {name : PackageName} (hs : requirement_source cx url = ok (.inr source))
    (hi : indexed_name index source = some name) : recorded cx index url = index := by
  simp [recorded, hs, hi]

/-- A call repeated on the index that it left returns the same requirement and leaves that
index as it is: the metadata it built, once inserted, answers the lookup of its source. -/
theorem resolve_requirement_repeat {requirement : UnnamedRequirement}
    {index index' : InMemoryIndex V} {q : pep508_rs.Requirement}
    (h : resolve_requirement cx requirement index = ok (q, index')) :
    resolve_requirement cx requirement index' = ok (q, index') := by
  obtain ⟨name, hn, rfl, rfl⟩ := (resolve_requirement_eq_ok cx).1 h
  cases hs : requirement_source cx requirement.url with
  | ok x =>
    cases x with
    | inl name' =>
      have hr : recorded cx index requirement.url = index := by simp [recorded, hs]
      rw [hr] at h ⊢
      exact h
    | inr source =>
      have hi := indexed_name_recorded cx hs (by simpa [name_of, hs] using hn)
      exact (resolve_requirement_eq_ok cx).2 ⟨name, by simp [name_of, hs, lookup, hi], rfl,
        (recorded_eq_self cx hs hi).symm⟩
  | err e => simp [name_of, hs] at hn
  | panic m => simp [name_of, hs] at hn

/-! ## Two calls of one Git URL that build -/

def sample_build_context : Context where
  path _ := "/pallets/flask"
  extension _ := none
  filename _ := .ok "flask"
  wheel_filename _ := .error "invalid wheel filename"
  sdist_filename _ := none
  scheme _ := some .GitHttps
  to_file_path _ := none
  is_dir _ := false
  join path name := path ++ "/" ++ name
  read _ := none
  parse_pkg_info _ := none
  parse_toml _ := none
  parse_setup_cfg _ := none
  package_name name := some name
  from_pep508 r := .ok ⟨r.name, r.extras, r.marker, r.origin⟩
  build_wheel_metadata _ := .ok ⟨⟨"flask", [], []⟩, []⟩

def sample_build_entries : List UnresolvedRequirement :=
  [.Unnamed ⟨"git+https://github.com/pallets/flask", [], none, none⟩,
   .Named ⟨"requests", [], none, none⟩,
   .Unnamed ⟨"git+https://github.com/pallets/flask", ["async"], none, none⟩]

def sample_build_requirements : List Requirement :=
  [⟨"flask", [], none, none⟩, ⟨"requests", [], none, none⟩, ⟨"flask", ["async"], none, none⟩]

theorem resolve_requirement_repeat_sample :
    resolve_requirement sample_build_context ⟨"git+https://github.com/pallets/flask", [], none, none⟩
        (.empty : InMemoryIndex Nat) =
      ok (UnnamedRequirement.named ⟨"git+https://github.com/pallets/flask", [], none, none⟩ "flask",
        (FxHashMap.empty : InMemoryIndex Nat).insert (.Url "git+https://github.com/pallets/flask")
          (.Found ⟨⟨"flask", [], []⟩, []⟩)) ∧
    resolve_requirement sample_build_context ⟨"git+https://github.com/pallets/flask", [], none, none⟩
        ((FxHashMap.empty : InMemoryIndex Nat).insert (.Url "git+https://github.com/pallets/flask")
          (.Found ⟨⟨"flask", [], []⟩, []⟩)) =
      ok (UnnamedRequirement.named ⟨"git+https://github.com/pallets/flask", [], none, none⟩ "flask",
        (FxHashMap.empty : InMemoryIndex Nat).insert (.Url "git+https://github.com/pallets/flask")
          (.Found ⟨⟨"flask", [], []⟩, []⟩)) :=
  have h : resolve_requirement sample_build_context
      ⟨"git+https://github.com/pallets/flask", [], none, none⟩ (.empty : InMemoryIndex Nat) =
      ok (UnnamedRequirement.named ⟨"git+https://github.com/pallets/flask", [], none, none⟩ "flask",
        (FxHashMap.empty : InMemoryIndex Nat).insert (.Url "git+https://github.com/pallets/flask")
          (.Found ⟨⟨"flask", [], []⟩, []⟩)) := rfl
  ⟨h, resolve_requirement_repeat sample_build_context h⟩

/-! ## What static metadata names -/

theorem from_str_eq_none {contents : String} {table : List (String × Toml)}
    (htoml : cx.parse_toml contents = some table)
    (hentry : (∃ v, table.lookup "project" = some v ∧ Project.deserialize cx v = none) ∨
      ∃ v, table.lookup "tool" = some v ∧ Tool.deserialize cx v = none) :
    PyProjectToml.from_str cx contents = none := by
  rcases hentry with ⟨v, hv, hd⟩ | ⟨v, hv, hd⟩ <;>
    simp [PyProjectToml.from_str, htoml, optional_field, hv, hd]

/-- After a `PKG-INFO` that gives no name, a `pyproject.toml` whose `project` or `tool`
entry does not deserialize is passed over whole: the static metadata names what
`setup.cfg` names, whatever the other table of the document holds. -/
theorem invalid_pyproject_entry_hides_names {path : PathBuf} {contents : String}
    {table : List (String × Toml)} (hpkg : pkg_info_name cx path = none)
    (hread : cx.read (cx.join path "pyproject.toml") = some contents)
    (htoml : cx.parse_toml contents = some table)
    (hentry : (∃ v, table.lookup "project" = some v ∧ Project.deserialize cx v = none) ∨
      ∃ v, table.lookup "tool" = some v ∧ Tool.deserialize cx v = none) :
    static_metadata_name cx path = setup_cfg_name cx path := by
  have hpy : pyproject_name cx path = none := by
    simp [pyproject_name, hread, from_str_eq_none cx htoml hentry]
  simp [static_metadata_name, hpkg, hpy]

/-! ## A project whose `project` table has no name -/

def sample_pyproject : String :=
  "[project]\nrequires-python = \">=3.8\"\n\n[tool.poetry]\nname = \"flask\"\n"

def sample_pyproject_table : List (String × Toml) :=
  [("project", .Table [("requires-python", .String ">=3.8")]),
   ("tool", .Table [("poetry", .Table [("name", .String "flask")])])]

def sample_directory_context : Context where
  path _ := "/srv/project"
  extension _ := none
  filename _ := .ok "project"
  wheel_filename _ := .error "invalid wheel filename"
  sdist_filename _ := none
  scheme _ := some .File
  to_file_path _ := some "/srv/project"
  is_dir _ := true
  join path name := path ++ "/" ++ name
  read
    | "/srv/project/pyproject.toml" => some sample_pyproject
    | "/srv/project/setup.cfg" => some "[metadata]\nname = flask-legacy\n"
    | _ => none
  parse_pkg_info _ := none
  parse_toml contents := if contents = sample_pyproject then some sample_pyproject_table else none
  parse_setup_cfg _ := some ⟨fun
    | "metadata" => some fun
      | "name" => some (some "flask-legacy")
      | _ => none
    | _ => none⟩
  package_name name := some name
  from_pep508 r := .ok ⟨r.name, r.extras, r.marker, r.origin⟩
  build_wheel_metadata _ := .error "not built"

theorem invalid_pyproject_entry_hides_names_sample :
    pkg_info_name sample_directory_context "/srv/project" = none ∧
    sample_directory_context.read (sample_directory_context.join "/srv/project" "pyproject.toml") =
      some sample_pyproject ∧
    sample_directory_context.parse_toml sample_pyproject = some sample_pyproject_table ∧
    ((∃ v, sample_pyproject_table.lookup "project" = some v ∧
        Project.deserialize sample_directory_context v = none) ∨
      ∃ v, sample_pyproject_table.lookup "tool" = some v ∧
        Tool.deserialize sample_directory_context v = none) ∧
    static_metadata_name sample_directory_context "/srv/project" =
      setup_cfg_name sample_directory_context "/srv/project" ∧
    (sample_pyproject_table.lookup "tool").bind (Tool.deserialize sample_directory_context) =
      some ⟨some ⟨some "flask"⟩⟩ ∧
    resolve_requirement sample_directory_context ⟨"file:///srv/project", [], none, none⟩
        (.empty : InMemoryIndex Nat) =
      ok (UnnamedRequirement.named ⟨"file:///srv/project", [], none, none⟩ "flask-legacy",
        .empty) :=
  have htoml : sample_directory_context.parse_toml sample_pyproject = some sample_pyproject_table :=
    by rfl
  ⟨rfl, rfl, htoml, .inl ⟨_, rfl, rfl⟩,
    invalid_pyproject_entry_hides_names sample_directory_context rfl rfl htoml (.inl ⟨_, rfl, rfl⟩),
    rfl, rfl⟩

/-! ## Where a call panics -/

/-- A file URL that reaches the local-source branch of `resolve_requirement`, with no
wheel's extension and no source distribution's filename, and that `Url::to_file_path`
rejects. -/
def RejectedFileUrl (url : VerbatimUrl) : Prop :=
  (cx.extension (cx.path url)).any (eq_ignore_ascii_case · "whl") = false ∧
    (cx.filename url).toOption.bind cx.sdist_filename = none ∧
    cx.scheme url = some .File ∧ cx.to_file_path url = none

instance (url : VerbatimUrl) : Decidable (RejectedFileUrl cx url) :=
  inferInstanceAs (Decidable (_ ∧ _ ∧ _ ∧ _))

theorem requirement_source_eq_panic {url : VerbatimUrl} {msg : String} :
    requirement_source cx url = .panic msg ↔
      msg = "URL to be a file path: ()" ∧ RejectedFileUrl cx url := by
  unfold requirement_source RejectedFileUrl
  split
  · rename_i hw
    refine iff_of_false (noPanic_bind (noPanic_lift _ _) (fun _ _ =>
      noPanic_bind (noPanic_lift _ _) fun _ _ => noPanic_ok _) msg) fun h => ?_
    simp [hw] at h
  · rename_i hw
    simp only [Bool.not_eq_true] at hw
    cases hs : (cx.filename url).toOption.bind cx.sdist_filename with
    | some name => simp
    | none =>
      cases hsc : cx.scheme url with
      | none => simp
      | some scheme =>
        cases scheme with
        | File =>
          cases hp : cx.to_file_path url with
          | none => simpa [hw] using eq_comm
          | some path =>
            simp only [reduceCtorEq, and_false, iff_false]
            split
            · split <;> simp
            · simp
        | _ => simp

theorem noPanic_requirement_source_iff {url : VerbatimUrl} :
    NoPanic (requirement_source cx url) ↔ ¬ RejectedFileUrl cx url := by
  simp only [NoPanic, ne_eq, requirement_source_eq_panic, not_and]
  exact ⟨fun h => h _ rfl, fun h _ _ => h⟩

/-- A call panics, with the message of its `expect`, exactly when its URL is a rejected file
URL; on every other URL it returns a requirement or an error. -/
theorem resolve_requirement_panics_iff_rejected (requirement : UnnamedRequirement)
    (index : InMemoryIndex V) (msg : String) :
    resolve_requirement cx requirement index = .panic msg ↔
      msg = "URL to be a file path: ()" ∧ RejectedFileUrl cx requirement.url := by
  rw [← requirement_source_eq_panic, resolve_requirement_eq]
  unfold name_of
  cases requirement_source cx requirement.url with
  | ok x =>
    cases x with
    | inl name => simp
    | inr source =>
      simp only [ok_bind]
      cases lookup cx index source <;> simp
  | err e => simp
  | panic m => simp

/-- A URL as the parser of unnamed requirements gives it: a file URL is built from a local
path, with no host, so `Url::to_file_path` accepts it. -/
def LocalFileUrl (url : VerbatimUrl) : Prop :=
  cx.scheme url = some .File → (cx.to_file_path url).isSome

instance (url : VerbatimUrl) : Decidable (LocalFileUrl cx url) :=
  inferInstanceAs (Decidable (_ → _))

theorem not_rejected_of_local {url : VerbatimUrl} (h : LocalFileUrl cx url) :
    ¬ RejectedFileUrl cx url :=
  fun ⟨_, _, hs, hp⟩ => by simpa [hp] using h hs

/-- A call on a URL that the parser gives returns a requirement or an error and never
panics: only a file URL that `to_file_path` rejects reaches the panic. -/
theorem resolve_requirement_no_panic (requirement : UnnamedRequirement)
    (hurl : LocalFileUrl cx requirement.url) (index : InMemoryIndex V) :
    NoPanic (resolve_requirement cx requirement index) := fun msg h =>
  not_rejected_of_local cx hurl ((resolve_requirement_panics_iff_rejected cx requirement index msg).1 h).2

theorem resolve_requirement_no_panic_sample :
    LocalFileUrl sample_directory_context "file:///srv/project" ∧
    NoPanic (resolve_requirement sample_directory_context ⟨"file:///srv/project", [], none, none⟩
      (.empty : InMemoryIndex Nat)) :=
  ⟨by decide, resolve_requirement_no_panic sample_directory_context _ (by decide) _⟩

/-! ## Indexes that agree -/

/-- An index agrees with another when every source that a URL can have gets the same name,
or the same failed build, on both. -/
def Agrees (index₀ index : InMemoryIndex V) : Prop :=
  ∀ url source, requirement_source cx url = ok (.inr source) →
    lookup cx index source = lookup cx index₀ source

theorem agrees_refl (index : InMemoryIndex V) : Agrees cx index index := fun _ _ _ => rfl

theorem name_of_agrees {index₀ index : InMemoryIndex V} (hA : Agrees cx index₀ index)
    (url : VerbatimUrl) : name_of cx index url = name_of cx index₀ url := by
  unfold name_of
  cases hs : requirement_source cx url with
  | ok x =>
    cases x with
    | inl name => rfl
    | inr source => simp only [ok_bind, hA url source hs]
  | err e => rfl
  | panic m => rfl

theorem agrees_insert {index₀ index : InMemoryIndex V} (hA : Agrees cx index₀ index)
    {url : VerbatimUrl} {source : SourceUrl} {archive : ArchiveMetadata}
    (hs : requirement_source cx url = ok (.inr source))
    (hl : lookup cx index₀ source = .ok archive.metadata.name) :
    Agrees cx index₀ (index.insert source.version_id (.Found archive)) := by
  intro url' source' hs'
  by_cases he : (source'.version_id : VersionId V) = source.version_id
  · have hu : url' = url := by
      rw [← requirement_source_url cx hs', ← requirement_source_url cx hs]
      simpa [SourceUrl.version_id, VersionId.from_url] using he
    subst hu
    rw [hs] at hs'
    cases hs'
    rw [hl]
    simp [lookup, indexed_name]
  · rw [← hA url' source' hs']
    simp [lookup, indexed_name, he]

theorem agrees_recorded {index₀ index : InMemoryIndex V} (hA : Agrees cx index₀ index)
    (url : VerbatimUrl) : Agrees cx index₀ (recorded cx index url) := by
  unfold recorded
  cases hs : requirement_source cx url with
  | ok x =>
    cases x with
    | inl name => exact hA
    | inr source =>
      dsimp only
      cases hi : indexed_name index source with
      | some name => exact hA
      | none =>
        cases hb : cx.build_wheel_metadata source with
        | error e => exact hA
        | ok archive =>
          exact agrees_insert cx hA hs (by rw [← hA url source hs, lookup, hi, hb]; rfl)
  | err e => exact hA
  | panic m => exact hA

/-- The requirements resolved one after another give what each gives alone on the first
index. -/
theorem resolve_in_order_eq {index₀ : InMemoryIndex V} (entries : List UnresolvedRequirement) :
    ∀ {index}, Agrees cx index₀ index →
      resolve_in_order cx entries index = sequence (entries.map (resolved cx index₀)) := by
  induction entries with
  | nil => intro _ _; rfl
  | cons entry entries ih =>
    intro index hA
    cases entry with
    | Named requirement => simp only [resolve_in_order, ih hA]; rfl
    | Unnamed requirement =>
      rw [resolve_in_order, resolve_requirement_eq, List.map_cons, sequence, resolved,
        name_of_agrees cx hA]
      cases name_of cx index₀ requirement.url with
      | ok name =>
        simp only [ok_bind, finish]
        rw [ih (agrees_recorded cx hA _)]
      | err e => rfl
      | panic m => rfl

/-! ## Runs -/

/-- What a call has done so far agrees with the call run alone on the first index: a
suspended call builds the source of its URL, which that index leaves to the build, and a
finished one has that call's result. -/
def TaskOk (index₀ : InMemoryIndex V) (entry : UnresolvedRequirement) : Task → Prop
  | .Start => True
  | .Building requirement source => entry = .Unnamed requirement ∧
    requirement_source cx requirement.url = ok (.inr source) ∧
    lookup cx index₀ source = (cx.build_wheel_metadata source).map fun a => a.metadata.name
  | .Done result => resolved cx index₀ entry = lift id result

/-- A run agrees with the calls run alone on the first index. -/
structure Consistent (index₀ : InMemoryIndex V) (entries : List UnresolvedRequirement)
    (r : Run V) : Prop where
  agrees : Agrees cx index₀ r.index
  tasks : List.Forall₂ (TaskOk cx index₀) entries r.tasks

theorem consistent_start (index₀ : InMemoryIndex V) (entries : List UnresolvedRequirement) :
    Consistent cx index₀ entries ⟨index₀, entries.map fun _ => .Start⟩ :=
  ⟨agrees_refl cx index₀, List.forall₂_map_right_iff.2 (List.forall₂_same.2 fun _ _ => trivial)⟩

variable {index₀ : InMemoryIndex V} {entries : List UnresolvedRequirement}

theorem poll_ok {entry : UnresolvedRequirement} {task task' : Task}
    {index index' : InMemoryIndex V} (hA : Agrees cx index₀ index)
    (ht : TaskOk cx index₀ entry task) (h : poll cx entry task index = .ok (task', index')) :
    TaskOk cx index₀ entry task' ∧ Agrees cx index₀ index' := by
  cases task with
  | Start =>
    cases entry with
    | Named requirement => cases h; exact ⟨rfl, hA⟩
    | Unnamed requirement =>
      have hn := name_of_agrees cx hA requirement.url
      simp only [poll] at h
      split at h
      · cases h
      · rename_i e hs
        cases h
        exact ⟨by rw [TaskOk, resolved, ← hn]; simp [name_of, hs], hA⟩
      · rename_i name hs
        cases h
        exact ⟨by rw [TaskOk, resolved, ← hn]; simp [name_of, hs], hA⟩
      · rename_i source hs
        split at h
        · rename_i name hi
          cases h
          exact ⟨by rw [TaskOk, resolved, ← hn]; simp [name_of, hs, lookup, hi], hA⟩
        · rename_i hi
          cases h
          exact ⟨⟨rfl, hs, by rw [← hA _ _ hs, lookup, hi]⟩, hA⟩
  | Building requirement source =>
    obtain ⟨rfl, hs, hl⟩ := ht
    simp only [poll] at h
    split at h
    · rename_i e hb
      cases h
      exact ⟨by simp [TaskOk, resolved, name_of, hs, hl, hb, Except.map], hA⟩
    · rename_i archive hb
      cases h
      exact ⟨by simp [TaskOk, resolved, name_of, hs, hl, hb, Except.map],
        agrees_insert cx hA hs (by rw [hl, hb]; rfl)⟩
  | Done result => cases h; exact ⟨ht, hA⟩

theorem step_consistent {r r' : Run V} {i : Nat} (hc : Consistent cx index₀ entries r)
    (h : step cx entries r i = .ok r') : Consistent cx index₀ entries r' := by
  unfold step at h
  split at h
  · cases h; exact hc
  · split at h
    · rename_i entry task he ht
      split at h
      · rename_i task' index' hp
        cases h
        obtain ⟨htask, hA⟩ := poll_ok cx hc.agrees (rel_of_forall₂ hc.tasks he ht) hp
        exact ⟨hA, forall₂_set hc.tasks fun a ha => (Option.some.inj (ha.symm.trans he)) ▸ htask⟩
      · cases h
    · cases h; exact hc

theorem run_consistent :
    ∀ {schedule : List Nat} {r r' : Run V}, Consistent cx index₀ entries r →
      run cx entries schedule r = .ok r' → Consistent cx index₀ entries r'
  | [], _, _, hc, h => by cases h; exact hc
  | _ :: _, _, _, hc, h => by
    simp only [run] at h
    split at h
    · exact run_consistent (step_consistent cx hc ‹_›) h
    · cases h

theorem try_collect_eq :
    ∀ {entries : List UnresolvedRequirement} {tasks : List Task},
      List.Forall₂ (TaskOk cx index₀) entries tasks → ∀ {result},
      try_collect tasks = some result →
        lift id result = sequence (entries.map (resolved cx index₀))
  | [], [], .nil, _, h => by cases h; rfl
  | entry :: _, task :: _, .cons ht htasks, _, h => by
    cases task with
    | Start => cases h
    | Building => cases h
    | Done res =>
      have ht : resolved cx index₀ entry = lift id res := ht
      cases res with
      | error e =>
        cases h
        simp only [List.map_cons, sequence, ht, lift_error, err_bind]
      | ok requirement =>
        simp only [try_collect, Option.map_eq_some'] at h
        obtain ⟨rest, hrest, rfl⟩ := h
        simp only [List.map_cons, sequence, ht, lift_ok, ok_bind,
          ← try_collect_eq htasks hrest]
        cases rest <;> rfl

theorem try_collect_run_eq {index : InMemoryIndex V} {schedule : List Nat} {r : Run V}
    (hr : run cx entries schedule ⟨index, entries.map fun _ => .Start⟩ = .ok r)
    {res : Except Error (List Requirement)} (hres : try_collect r.tasks = some res) :
    lift id res = resolve_in_order cx entries index := by
  rw [resolve_in_order_eq cx entries (agrees_refl cx index)]
  exact try_collect_eq cx (run_consistent cx (consistent_start cx index entries) hr).tasks hres

/-- A run of polls that ends in a result without a panic ends in the result of the
requirements resolved one after another in their order. -/
theorem resolve_eq_resolve_in_order {index : InMemoryIndex V} {schedule : List Nat}
    {result : Outcome Error (List Requirement)}
    (h : resolve cx entries index schedule = some result) (hp : ∀ msg, result ≠ .panic msg) :
    result = resolve_in_order cx entries index := by
  unfold resolve at h
  split at h
  · cases h; exact absurd rfl (hp _)
  · rename_i r hr
    obtain ⟨res, hres, rfl⟩ := Option.map_eq_some'.1 h
    exact try_collect_run_eq cx hr hres

theorem resolve_eq_resolve_in_order_sample :
    resolve sample_build_context sample_build_entries (.empty : InMemoryIndex Nat)
        [0, 2, 0, 2, 1] = some (ok sample_build_requirements) ∧
      ok sample_build_requirements =
        resolve_in_order sample_build_context sample_build_entries (.empty : InMemoryIndex Nat) :=
  have h : resolve sample_build_context sample_build_entries (.empty : InMemoryIndex Nat)
      [0, 2, 0, 2, 1] = some (ok sample_build_requirements) := by decide
  ⟨h, resolve_eq_resolve_in_order sample_build_context h fun _ => nofun⟩

/-- However the polls interleave, the shared index stays transparent: on the index that a
run leaves, the call for any URL finds the name, or the failed build, that it finds on the
first index. A call that builds a source that another call has built meanwhile inserts the
same metadata again. -/
theorem run_index_coherent {index : InMemoryIndex V} {schedule : List Nat} {r : Run V}
    (h : run cx entries schedule ⟨index, entries.map fun _ => .Start⟩ = .ok r)
    (url : VerbatimUrl) : name_of cx r.index url = name_of cx index url :=
  name_of_agrees cx (run_consistent cx (consistent_start cx index entries) h).agrees url

theorem run_index_coherent_sample : ∃ r : Run Nat,
    run sample_build_context sample_build_entries [0, 2, 0, 2, 1]
        ⟨.empty, sample_build_entries.map fun _ => .Start⟩ = .ok r ∧
      ∀ url, name_of sample_build_context r.index url =
        name_of sample_build_context (.empty : InMemoryIndex Nat) url :=
  have h : run sample_build_context sample_build_entries [0, 2, 0, 2, 1]
      ⟨(.empty : InMemoryIndex Nat), sample_build_entries.map fun _ => .Start⟩ = .ok _ := rfl
  ⟨_, h, run_index_coherent sample_build_context h⟩

theorem sequence_eq_ok :
    ∀ {xs : List (Outcome Error Requirement)} {requirements : List Requirement},
      sequence xs = ok requirements ↔ List.Forall₂ (fun x requirement => x = ok requirement) xs
        requirements
  | [], requirements => by cases requirements <;> simp [sequence]
  | x :: xs, requirements => by
    simp only [sequence, bind_eq_ok, pure_eq, Outcome.ok.injEq, List.forall₂_cons_left_iff,
      sequence_eq_ok]
    exact ⟨fun ⟨a, ha, rs, hrs, he⟩ => ⟨a, rs, ha, hrs, he.symm⟩,
      fun ⟨a, rs, ha, hrs, he⟩ => ⟨a, ha, rs, hrs, he.symm⟩⟩

/-- However the polls interleave, a run that ends in requirements gives one for each entry,
in their order: a named one as it is, and for each unnamed one what its call gives alone on
the first index. No call sees what another did to the index. -/
theorem resolve_eq_ok {index : InMemoryIndex V} {schedule : List Nat}
    {requirements : List Requirement}
    (h : resolve cx entries index schedule = some (ok requirements)) :
    List.Forall₂ (fun entry requirement => resolved cx index entry = ok requirement) entries
      requirements := by
  unfold resolve at h
  split at h
  · cases h
  · rename_i r hr
    obtain ⟨res, hres, hl⟩ := Option.map_eq_some'.1 h
    have hseq := try_collect_eq cx (run_consistent cx (consistent_start cx index entries) hr).tasks
      hres
    rw [hl] at hseq
    exact List.forall₂_map_left_iff.1 (sequence_eq_ok.1 hseq.symm)

theorem resolve_eq_ok_sample :
    resolve sample_build_context sample_build_entries (.empty : InMemoryIndex Nat)
        [0, 2, 0, 2, 1] = some (ok sample_build_requirements) ∧
      List.Forall₂ (fun entry requirement => resolved sample_build_context
        (.empty : InMemoryIndex Nat) entry = ok requirement) sample_build_entries
        sample_build_requirements :=
  have h : resolve sample_build_context sample_build_entries (.empty : InMemoryIndex Nat)
      [0, 2, 0, 2, 1] = some (ok sample_build_requirements) := by decide
  ⟨h, resolve_eq_ok sample_build_context h⟩

/-! ## What the shared index keeps -/

/-- Every suspended call builds the source of its own URL, and the build gives the metadata
that the index holds for that source, if it holds metadata for it. -/
def BuildsHeld (r : Run V) : Prop :=
  ∀ requirement source, Task.Building requirement source ∈ r.tasks →
    requirement_source cx source.url = ok (.inr source) ∧
    ∀ archive, r.index.get source.version_id = some (.Found archive) →
      cx.build_wheel_metadata source = .ok archive

/-- An index keeps what another holds: no entry goes, and metadata found stays as it is. -/
def Keeps (index index' : InMemoryIndex V) : Prop :=
  (∀ k, index.get k ≠ none → index'.get k ≠ none) ∧
  ∀ k archive, index.get k = some (.Found archive) → index'.get k = some (.Found archive)

theorem keeps_refl (index : InMemoryIndex V) : Keeps index index :=
  ⟨fun _ h => h, fun _ _ h => h⟩

theorem Keeps.trans {index index' index'' : InMemoryIndex V} (h : Keeps index index')
    (h' : Keeps index' index'') : Keeps index index'' :=
  ⟨fun k hk => h'.1 k (h.1 k hk), fun k a hk => h'.2 k a (h.2 k a hk)⟩

theorem keeps_insert {index : InMemoryIndex V} {k : VersionId V} {archive : ArchiveMetadata}
    (h : ∀ a, index.get k = some (.Found a) → a = archive) :
    Keeps index (index.insert k (.Found archive)) := by
  refine ⟨fun k' hk => ?_, fun k' a hk => ?_⟩ <;> rw [FxHashMap.get_insert] <;> split_ifs with he
  · exact Option.some_ne_none _
  · exact hk
  · rw [h a (he ▸ hk)]
  · exact hk

/-- A poll leaves the index as it is, and suspends a call only at a source of its URL that
the index holds no metadata for; or it ends a suspended call whose build succeeds, and
inserts the metadata built. -/
theorem poll_index {entry : UnresolvedRequirement} {task task' : Task}
    {index index' : InMemoryIndex V} (h : poll cx entry task index = .ok (task', index')) :
    (index' = index ∧ ∀ requirement source, task' = .Building requirement source →
      requirement_source cx source.url = ok (.inr source) ∧ indexed_name index source = none) ∨
    ∃ requirement source archive, task = .Building requirement source ∧
      cx.build_wheel_metadata source = .ok archive ∧ (∀ r s, task' ≠ .Building r s) ∧
      index' = index.insert source.version_id (.Found archive) := by
  cases task with
  | Start =>
    cases entry with
    | Named requirement => cases h; exact .inl ⟨rfl, nofun⟩
    | Unnamed requirement =>
      simp only [poll] at h
      split at h
      · cases h
      · cases h; exact .inl ⟨rfl, nofun⟩
      · cases h; exact .inl ⟨rfl, nofun⟩
      · rename_i source hs
        split at h
        · cases h; exact .inl ⟨rfl, nofun⟩
        · rename_i hi
          cases h
          refine .inl ⟨rfl, fun _ _ he => ?_⟩
          cases he
          exact ⟨by rw [requirement_source_url cx hs]; exact hs, hi⟩
  | Building requirement source =>
    simp only [poll] at h
    split at h
    · cases h; exact .inl ⟨rfl, nofun⟩
    · rename_i archive hb
      cases h
      exact .inr ⟨_, _, archive, rfl, hb, nofun, rfl⟩
  | Done result => cases h; exact .inl ⟨rfl, nofun⟩

theorem buildsHeld_start (index : InMemoryIndex V) (entries : List UnresolvedRequirement) :
    BuildsHeld cx ⟨index, entries.map fun _ => .Start⟩ := by
  intro _ _ h
  obtain ⟨_, -, h⟩ := List.mem_map.1 h
  cases h

theorem step_keeps {r r' : Run V} {i : Nat} (hr : BuildsHeld cx r)
    (h : step cx entries r i = .ok r') : BuildsHeld cx r' ∧ Keeps r.index r'.index := by
  unfold step at h
  split at h
  · cases h; exact ⟨hr, keeps_refl _⟩
  split at h
  · rename_i entry task he ht
    split at h
    · rename_i task' index' hp
      cases h
      rcases poll_index cx hp with ⟨rfl, hnew⟩ | ⟨requirement, source, archive, rfl, hb, hdone, rfl⟩
      · refine ⟨fun q s hq => ?_, keeps_refl _⟩
        rcases List.mem_or_eq_of_mem_set hq with hq | hq
        · exact hr q s hq
        · obtain ⟨hs, hi⟩ := hnew q s hq.symm
          refine ⟨hs, fun a ha => ?_⟩
          simp [indexed_name, ha] at hi
      · obtain ⟨hs, hheld⟩ := hr requirement source (List.getElem?_mem ht)
        have hsame : ∀ s : SourceUrl, requirement_source cx s.url = ok (.inr s) →
            (s.version_id : VersionId V) = source.version_id → s = source := fun s hs' he => by
          have hu : s.url = source.url := by
            simpa [SourceUrl.version_id, VersionId.from_url] using he
          rw [hu, hs] at hs'
          cases hs'
          rfl
        refine ⟨fun q s hq => ?_, keeps_insert fun a ha => Except.ok.inj ((hheld a ha).symm.trans hb)⟩
        rcases List.mem_or_eq_of_mem_set hq with hq | hq
        · obtain ⟨hs', hheld'⟩ := hr q s hq
          refine ⟨hs', fun a ha => ?_⟩
          rw [FxHashMap.get_insert] at ha
          split_ifs at ha with he
          · cases ha
            rw [hsame s hs' he]
            exact hb
          · exact hheld' a ha
        · exact absurd hq.symm (hdone q s)
    · cases h
  · cases h; exact ⟨hr, keeps_refl _⟩

theorem run_keeps :
    ∀ {schedule : List Nat} {r r' : Run V}, BuildsHeld cx r →
      run cx entries schedule r = .ok r' → BuildsHeld cx r' ∧ Keeps r.index r'.index
  | [], _, _, hr, h => by cases h; exact ⟨hr, keeps_refl _⟩
  | _ :: _, _, _, hr, h => by
    simp only [run] at h
    split at h
    · rename_i r₁ h₁
      obtain ⟨hr₁, hk₁⟩ := step_keeps cx hr h₁
      obtain ⟨hr', hk'⟩ := run_keeps hr₁ h
      exact ⟨hr', hk₁.trans hk'⟩
    · cases h

/-- However the polls interleave, the shared index loses no update: from any point of a run
to any later one, no entry goes, and the metadata found for a distribution stays as it is.
Two calls that build one source meanwhile insert the same metadata, the build being a
function of the source. -/
theorem run_keeps_index {index : InMemoryIndex V} {schedule schedule' : List Nat}
    {r r' : Run V} (h : run cx entries schedule ⟨index, entries.map fun _ => .Start⟩ = .ok r)
    (h' : run cx entries schedule' r = .ok r') :
    (∀ k, r.index.get k ≠ none → r'.index.get k ≠ none) ∧
    ∀ k archive, r.index.get k = some (.Found archive) → r'.index.get k = some (.Found archive) :=
  (run_keeps cx (run_keeps cx (buildsHeld_start cx index entries) h).1 h').2

theorem run_keeps_index_sample : ∃ r r' : Run Nat,
    run sample_build_context sample_build_entries [0, 0]
        ⟨.empty, sample_build_entries.map fun _ => .Start⟩ = .ok r ∧
      run sample_build_context sample_build_entries [2, 2, 1] r = .ok r' ∧
      (∀ k, r.index.get k ≠ none → r'.index.get k ≠ none) ∧
      ∀ k archive, r.index.get k = some (.Found archive) → r'.index.get k = some (.Found archive) :=
  have h : run sample_build_context sample_build_entries [0, 0]
      ⟨(.empty : InMemoryIndex Nat), sample_build_entries.map fun _ => .Start⟩ = .ok _ := rfl
  ⟨_, _, h, rfl, @run_keeps_index sample_build_context _ _ _ _ _ [2, 2, 1] _ _ h rfl⟩

/-! ## Runs that end -/

theorem poll_eq_error {entry : UnresolvedRequirement} {task : Task} {index : InMemoryIndex V}
    {msg : String} (h : poll cx entry task index = .error msg) :
    ∃ requirement, entry = .Unnamed requirement ∧
      requirement_source cx requirement.url = .panic msg := by
  unfold poll at h
  repeat' split at h
  all_goals cases h
  exact ⟨_, rfl, ‹_›⟩

section NoPanic

variable (hnp : ∀ requirement, .Unnamed requirement ∈ entries →
  NoPanic (requirement_source cx requirement.url))
include hnp

theorem step_ne_error (r : Run V) (i : Nat) (msg : String) : step cx entries r i ≠ .error msg := by
  intro h
  unfold step at h
  split at h
  · cases h
  · split at h
    · rename_i entry task he _
      split at h
      · cases h
      · rename_i hp
        cases h
        obtain ⟨requirement, rfl, hs⟩ := poll_eq_error cx hp
        exact hnp requirement (List.getElem?_mem he) msg hs
    · cases h

theorem run_ok : ∀ (schedule : List Nat) (r : Run V), ∃ r', run cx entries schedule r = .ok r'
  | [], r => ⟨r, rfl⟩
  | i :: schedule, r => by
    simp only [run]
    cases hs : step cx entries r i with
    | ok r₁ => exact run_ok schedule r₁
    | error m => exact absurd hs (step_ne_error cx hnp r i m)

end NoPanic

def Task.rank : Task → Nat
  | .Start => 0
  | .Building _ _ => 1
  | .Done _ => 2

theorem poll_rank {entry : UnresolvedRequirement} {task task' : Task}
    {index index' : InMemoryIndex V} (h : poll cx entry task index = .ok (task', index')) :
    min (task.rank + 1) 2 ≤ task'.rank := by
  unfold poll at h
  repeat' split at h
  all_goals cases h <;> simp [Task.rank]

theorem run_collected {r : Run V} (hc : (try_collect r.tasks).isSome) :
    ∀ schedule, run cx entries schedule r = .ok r
  | [] => rfl
  | i :: schedule => by
    have hs : step cx entries r i = .ok r := by rw [step, if_pos hc]
    simp only [run, hs]
    exact run_collected hc schedule

theorem step_progress {r r' : Run V} {i : Nat} (hlen : r.tasks.length = entries.length)
    (h : step cx entries r i = .ok r') :
    r'.tasks.length = r.tasks.length ∧
      ((try_collect r.tasks).isSome ∧ r' = r ∨
        (∀ j, j ≠ i → r'.tasks[j]? = r.tasks[j]?) ∧
        ∀ t, r.tasks[i]? = some t → ∃ t', r'.tasks[i]? = some t' ∧ min (t.rank + 1) 2 ≤ t'.rank) := by
  unfold step at h
  split at h
  · cases h; exact ⟨rfl, .inl ⟨‹_›, rfl⟩⟩
  · split at h
    · rename_i entry task _ ht
      split at h
      · rename_i task' index' hp
        cases h
        have hi : i < r.tasks.length := (List.getElem?_eq_some_iff.1 ht).1
        refine ⟨List.length_set .., .inr ⟨fun j hj => List.getElem?_set_ne (Ne.symm hj),
          fun t ht' => ⟨task', List.getElem?_set_self hi, ?_⟩⟩⟩
        rw [ht] at ht'
        cases ht'
        exact poll_rank cx hp
      · cases h
    · rename_i hne
      cases h
      refine ⟨rfl, .inr ⟨fun _ _ => rfl, fun t ht => ?_⟩⟩
      have hi : i < entries.length := hlen ▸ (List.getElem?_eq_some_iff.1 ht).1
      exact (hne _ _ (List.getElem?_eq_getElem hi) ht).elim

theorem run_round : ∀ {l : List Nat} {r r' : Run V}, l.Nodup →
    r.tasks.length = entries.length → run cx entries l r = .ok r' →
    r'.tasks.length = r.tasks.length ∧ ((try_collect r'.tasks).isSome ∨
      (∀ j ∈ l, ∀ t, r.tasks[j]? = some t →
        ∃ t', r'.tasks[j]? = some t' ∧ min (t.rank + 1) 2 ≤ t'.rank) ∧
      ∀ j ∉ l, r'.tasks[j]? = r.tasks[j]?)
  | [], _, _, _, _, h => by cases h; exact ⟨rfl, .inr ⟨by simp, fun _ _ => rfl⟩⟩
  | i :: l, r, r', hl, hlen, h => by
    simp only [run] at h
    split at h
    · rename_i r₁ h₁
      obtain ⟨hlen₁, ⟨hc, rfl⟩ | ⟨hframe, hprog⟩⟩ := step_progress cx hlen h₁
      · rw [run_collected cx hc] at h
        cases h
        exact ⟨rfl, .inl hc⟩
      · obtain ⟨hi, hl⟩ := List.nodup_cons.1 hl
        obtain ⟨hlen', hc' | ⟨hprog', hframe'⟩⟩ := run_round hl (hlen₁.trans hlen) h
        · exact ⟨hlen'.trans hlen₁, .inl hc'⟩
        refine ⟨hlen'.trans hlen₁, .inr ⟨fun j hj t ht => ?_, fun j hj => ?_⟩⟩
        · rcases List.mem_cons.1 hj with rfl | hj
          · obtain ⟨t', ht', hle⟩ := hprog t ht
            exact ⟨t', (hframe' j hi).trans ht', hle⟩
          · exact hprog' j hj t ((hframe j fun e => hi (e ▸ hj)).trans ht)
        · rw [hframe' j fun h => hj (List.mem_cons_of_mem _ h),
            hframe j fun e => hj (e ▸ List.mem_cons_self _ _)]
    · cases h

theorem try_collect_isSome : ∀ {tasks : List Task}, (∀ t ∈ tasks, 2 ≤ t.rank) →
    (try_collect tasks).isSome
  | [], _ => rfl
  | .Start :: _, h => absurd (h _ (List.mem_cons_self _ _)) (by simp [Task.rank])
  | .Building _ _ :: _, h => absurd (h _ (List.mem_cons_self _ _)) (by simp [Task.rank])
  | .Done (.error _) :: _, _ => rfl
  | .Done (.ok _) :: _, h => by
    simpa [try_collect] using try_collect_isSome fun t ht => h t (List.mem_cons_of_mem _ ht)

/-- Two rounds of polls of every call bring the result. -/
theorem run_two_rounds {r r₁ r₂ : Run V} (hlen : r.tasks.length = entries.length)
    (h₁ : run cx entries (List.range entries.length) r = .ok r₁)
    (h₂ : run cx entries (List.range entries.length) r₁ = .ok r₂) :
    (try_collect r₂.tasks).isSome := by
  obtain ⟨hlen₁, hc₁ | ⟨hprog₁, -⟩⟩ := run_round cx (List.nodup_range _) hlen h₁
  · rw [run_collected cx hc₁] at h₂
    cases h₂
    exact hc₁
  obtain ⟨hlen₂, hc₂ | ⟨hprog₂, -⟩⟩ := run_round cx (List.nodup_range _) (hlen₁.trans hlen) h₂
  · exact hc₂
  refine try_collect_isSome fun t ht => ?_
  obtain ⟨j, hj⟩ := List.mem_iff_getElem?.1 ht
  have hjn : j < entries.length := by
    have := (List.getElem?_eq_some_iff.1 hj).1
    omega
  obtain ⟨t₁, ht₁, hle₁⟩ := hprog₁ j (List.mem_range.2 hjn) _
    (List.getElem?_eq_getElem (hlen ▸ hjn))
  obtain ⟨t₂, ht₂, hle₂⟩ := hprog₂ j (List.mem_range.2 hjn) t₁ ht₁
  rw [hj] at ht₂
  cases ht₂
  omega

theorem run_append (l₁ l₂ : List Nat) (r : Run V) :
    run cx entries (l₁ ++ l₂) r = match run cx entries l₁ r with
      | .ok r => run cx entries l₂ r
      | .error msg => .error msg := by
  induction l₁ generalizing r with
  | nil => rfl
  | cons i l₁ ih =>
    simp only [List.cons_append, run]
    cases step cx entries r i with
    | ok r₁ => exact ih r₁
    | error msg => rfl

section NoPanic

variable (hnp : ∀ requirement, .Unnamed requirement ∈ entries →
  NoPanic (requirement_source cx requirement.url))
include hnp

theorem resolve_eq_some_in_order {index : InMemoryIndex V} {schedule : List Nat}
    {result : Outcome Error (List Requirement)}
    (h : resolve cx entries index schedule = some result) :
    result = resolve_in_order cx entries index := by
  obtain ⟨r, hr⟩ := run_ok cx hnp schedule ⟨index, entries.map fun _ => .Start⟩
  simp only [resolve, hr, Option.map_eq_some'] at h
  obtain ⟨res, hres, rfl⟩ := h
  exact try_collect_run_eq cx hr hres

theorem resolve_rounds_isSome (index : InMemoryIndex V) (schedule : List Nat) :
    (resolve cx entries index
      (schedule ++ (List.range entries.length ++ List.range entries.length))).isSome := by
  have hc := consistent_start cx index entries
  obtain ⟨r₀, h₀⟩ := run_ok cx hnp schedule ⟨index, entries.map fun _ => .Start⟩
  obtain ⟨r₁, h₁⟩ := run_ok cx hnp (List.range entries.length) r₀
  obtain ⟨r₂, h₂⟩ := run_ok cx hnp (List.range entries.length) r₁
  have hrun : run cx entries (schedule ++ (List.range entries.length ++
      List.range entries.length)) ⟨index, entries.map fun _ => .Start⟩ = .ok r₂ := by
    simp only [run_append, h₀, h₁, h₂]
  have hlen : r₀.tasks.length = entries.length := (run_consistent cx hc h₀).tasks.length_eq.symm
  simp only [resolve, hrun, Option.isSome_map']
  exact run_two_rounds cx hlen h₁ h₂

theorem resolve_rounds_eq_some (index : InMemoryIndex V) (schedule : List Nat) :
    resolve cx entries index
        (schedule ++ (List.range entries.length ++ List.range entries.length)) =
      some (resolve_in_order cx entries index) := by
  obtain ⟨result, h⟩ := Option.isSome_iff_exists.1 (resolve_rounds_isSome cx hnp index schedule)
  rw [h, resolve_eq_some_in_order cx hnp h]

end NoPanic

/-- When every URL is one that the requirement parser gives, `resolve` never panics, however
the polls of its calls interleave: every schedule that reaches a result reaches that of the
requirements resolved one after another in their order, and every schedule followed by two
rounds of polls of every call reaches it. -/
theorem resolve_concurrent_eq_in_order
    (hurls : ∀ requirement, .Unnamed requirement ∈ entries → LocalFileUrl cx requirement.url)
    (index : InMemoryIndex V) :
    (∀ schedule result, resolve cx entries index schedule = some result →
      result = resolve_in_order cx entries index) ∧
    ∀ schedule, resolve cx entries index
        (schedule ++ (List.range entries.length ++ List.range entries.length)) =
      some (resolve_in_order cx entries index) := by
  have hnp : ∀ requirement, .Unnamed requirement ∈ entries →
      NoPanic (requirement_source cx requirement.url) := fun requirement hr =>
    (noPanic_requirement_source_iff cx).2 (not_rejected_of_local cx (hurls requirement hr))
  exact ⟨fun _ _ h => resolve_eq_some_in_order cx hnp h, resolve_rounds_eq_some cx hnp index⟩

theorem resolve_concurrent_eq_in_order_sample :
    (∀ requirement, .Unnamed requirement ∈ sample_build_entries →
      LocalFileUrl sample_build_context requirement.url) ∧
    (∀ schedule result, resolve sample_build_context sample_build_entries
        (.empty : InMemoryIndex Nat) schedule = some result →
      result = resolve_in_order sample_build_context sample_build_entries
        (.empty : InMemoryIndex Nat)) ∧
    ∀ schedule, resolve sample_build_context sample_build_entries (.empty : InMemoryIndex Nat)
        (schedule ++ (List.range sample_build_entries.length ++
          List.range sample_build_entries.length)) =
      some (resolve_in_order sample_build_context sample_build_entries
        (.empty : InMemoryIndex Nat)) :=
  have hurls : ∀ requirement, .Unnamed requirement ∈ sample_build_entries →
      LocalFileUrl sample_build_context requirement.url := fun _ _ h => by
    simp [sample_build_context] at h
  ⟨hurls, resolve_concurrent_eq_in_order sample_build_context hurls .empty⟩

end uv_requirements.unnamed
