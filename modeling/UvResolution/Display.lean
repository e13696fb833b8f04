-- `DisplayResolutionGraph::fmt` (resolution.rs, lines 526 to 807): the requirements.txt
-- text of a resolution. The nodes are sorted by their key, so the text does not depend on
-- the order in which the graph was built; the two annotation styles are separate arms.
import UvResolution.EdgePass

namespace uv_resolver.resolution

open uv_resolver

variable {V : Type}

/-! ## Text -/

/-- `char::is_whitespace`: the characters of Unicode's `White_Space`. -/
def is_whitespace (c : Char) : Bool :=
  let n := c.toNat
  (9 ≤ n && n ≤ 13) || n == 32 || n == 0x85 || n == 0xA0 || n == 0x1680 ||
    (0x2000 ≤ n && n ≤ 0x200A) || n == 0x2028 || n == 0x2029 || n == 0x202F || n == 0x205F ||
    n == 0x3000

/-- `str::trim_end`. -/
def trim_end (s : String) : String := ⟨(s.toList.reverse.dropWhile is_whitespace).reverse⟩

/-- The pieces of a text between its line feeds. -/
def split_lines : List Char → List (List Char)
  | [] => [[]]
  | c :: cs =>
    if c = '\n' then [] :: split_lines cs
    else match split_lines cs with
      | l :: ls => (c :: l) :: ls
      | [] => [[c]]

/-- `str::lines`: the lines of a text without their ends, a line feed or a carriage return
and a line feed; a last line with no line feed is kept as it is, and left out when empty. -/
def lines (s : String) : List String :=
  let pieces := split_lines s.toList
  ((pieces.dropLast.map fun l => if l.getLast? = some '\r' then l.dropLast else l) ++
    (pieces.getLast?.filter fun l => !l.isEmpty).toList).map String.mk

example : lines "flask\r\n# via\r" = ["flask", "# via\r"] := by decide

/-- `format!("{line:24}")`: the text, padded with spaces to 24 characters. -/
def pad_24 (line : String) : String := line ++ ⟨List.replicate (24 - line.length) ' '⟩

/-- `sort_unstable` then `dedup` on a list of names. -/
def sort_dedup (names : List String) : List String :=
  (names.insertionSort fun a b => a.toList ≤ b.toList).destutter (· ≠ ·)

/-! ## The display -/

/-- `AnnotationStyle`; `Split` is the default. -/
inductive AnnotationStyle where
  | Line
  | Split
  deriving DecidableEq, Repr

/-- `SourceAnnotations`: the texts of the external sources of each package (requirements
files, constraints, overrides), by name and by editable URL, in the order of the set that
holds them. -/
structure SourceAnnotations where
  get : PackageName → Option (List String)
  get_editable : VerbatimUrl → Option (List String)

/-- The texts that `fmt` takes from types outside these sources: `ResolvedDist::verbatim`,
`VersionOrUrlRef::verbatim`, `IndexUrl::redacted`, and the `colored` crate's `green`, which
colours a text when the output is a terminal. -/
structure DisplayTexts (V : Type) where
  dist_verbatim : ResolvedDist V → String
  version_or_url_verbatim : VersionOrUrlRef V → String
  redacted : IndexUrl → String
  green : String → String

/-- `DisplayResolutionGraph`. -/
structure DisplayResolutionGraph (V : Type) where
  resolution : ResolutionGraph V
  no_emit_packages : List PackageName
  show_hashes : Bool
  include_extras : Bool
  include_annotations : Bool
  include_index_annotation : Bool
  annotation_style : AnnotationStyle
  sources : SourceAnnotations

/-- `From<&ResolutionGraph> for DisplayResolutionGraph` (lines 551 to 564): no package left
out, no hashes, no extras, annotations without the index, in the default `Split` style, and
no external sources. -/
def DisplayResolutionGraph.from (resolution : ResolutionGraph V) : DisplayResolutionGraph V :=
  ⟨resolution, [], false, false, true, false, .Split, ⟨fun _ => none, fun _ => none⟩⟩

/-- `Node`: a node of an editable, or of a distribution with the extras to print. -/
inductive Node (V : Type) where
  | Editable (name : PackageName) (editable : LocalEditable)
  | Distribution (name : PackageName) (dist : ResolvedDist V) (extras : List ExtraName)

/-- `NodeKey`: editables by their URL, the others by name. -/
inductive NodeKey where
  | Editable (verbatim : String)
  | Distribution (name : PackageName)
  deriving DecidableEq

/-- The order that `NodeKey` derives, as a lexicographic key: the variant, then the text. -/
def NodeKey.ord : NodeKey → Lex (ℕ × List Char)
  | .Editable verbatim => toLex (0, verbatim.toList)
  | .Distribution name => toLex (1, name.toList)

namespace Node

def name : Node V → PackageName
  | .Editable name _ => name
  | .Distribution name _ _ => name

def key : Node V → NodeKey
  | .Editable _ editable => .Editable editable.verbatim
  | .Distribution name _ _ => .Distribution name

def index : Node V → Option IndexUrl
  | .Editable _ _ => none
  | .Distribution _ dist _ => dist.index

/-- `Node::verbatim`. -/
def verbatim (texts : DisplayTexts V) : Node V → String
  | .Editable _ editable => "-e " ++ editable.verbatim
  | .Distribution _ dist [] => texts.dist_verbatim dist
  | .Distribution _ dist extras =>
    dist.name ++ "[" ++ ", ".intercalate (sort_dedup extras) ++ "]" ++
      texts.version_or_url_verbatim dist.version_or_url

end Node

/-- The key `(node.key(), index)` by which `fmt` sorts the nodes. -/
def sort_key (entry : NodeIndex × Node V) : Lex (Lex (ℕ × List Char) × ℕ) :=
  toLex (entry.2.key.ord, entry.1)

/-- The dists of the sources of the edges into a node, as `edges_directed` yields them. -/
def ResolutionGraph.incoming_dists (g : ResolutionGraph V) (index : NodeIndex) :
    List (ResolvedDist V) :=
  (g.petgraph.incoming index).filterMap fun edge => g.petgraph.nodes[edge.source]?

/-- The annotation of a node, its separator and its comment (lines 737 to 781), from the
names of the sources of its incoming edges, sorted, and its external sources. -/
def annotation_parts (texts : DisplayTexts V) (annotation_style : AnnotationStyle)
    (has_hashes : Bool) (edges : List PackageName) (source : List String) :
    Option (String × String) :=
  let split_many := some ("\n", texts.green ("    # via\n" ++
    "\n".intercalate ((source ++ edges).map fun name => "    #   " ++ name)))
  match annotation_style with
  | .Line =>
    if !edges.isEmpty then
      some (if has_hashes then "\n    " else "  ",
        texts.green ("# via " ++ ", ".intercalate (edges ++ source)))
    else none
  | .Split =>
    match edges with
    | [] =>
      if source.isEmpty then none
      else if source.length = 1 then some ("\n", texts.green ("    # via " ++ source.head!))
      else split_many
    | [edge] => if source.isEmpty then some ("\n", texts.green ("    # via " ++ edge)) else split_many
    | _ => split_many

namespace DisplayResolutionGraph

variable (self : DisplayResolutionGraph V) (texts : DisplayTexts V)

/-- The node of a distribution (lines 666 to 681). -/
def node (dist : ResolvedDist V) : Node V :=
  match self.resolution.editables.get dist.name with
  | some (editable, _, _) => .Editable dist.name editable
  | none =>
    if self.include_extras then
      .Distribution dist.name dist ((self.resolution.extras.get dist.name).getD [])
    else .Distribution dist.name dist []

/-- The nodes to print, with their indices, in the order of the graph. -/
def nodes : List (NodeIndex × Node V) :=
  self.resolution.petgraph.nodes.enum.filterMap fun (index, dist) =>
    if dist.name ∈ self.no_emit_packages then none else some (index, self.node dist)

/-- What `fmt` writes for one node (lines 690 to 803), from what it reads for it: the hashes
recorded for its name, and the distributions of the sources of its incoming edges. -/
def node_text (node : Node V) (hashes : Option (List HashDigest))
    (incoming : List (ResolvedDist V)) : String :=
  let digests :=
    if self.show_hashes then (hashes.filter fun hashes => !hashes.isEmpty).getD [] else []
  let line := digests.foldl (fun line hash => line ++ " \\\n" ++ "    --hash=" ++ hash.to_string)
    (node.verbatim texts)
  let annotation := if self.include_annotations then
      let edges := (incoming.insertionSort fun a b => a.name.toList ≤ b.name.toList).map
        ResolvedDist.name
      let source := match node with
        | .Editable _ editable => (self.sources.get_editable editable.url).getD []
        | .Distribution name _ _ => (self.sources.get name).getD []
      annotation_parts texts self.annotation_style (!digests.isEmpty) edges source
    else none
  let text := match annotation with
    | some (separator, comment) =>
      String.join ((lines (pad_24 line ++ separator ++ comment)).map fun line =>
        trim_end line ++ "\n")
    | none => line ++ "\n"
  let index_text := match self.include_index_annotation, node.index with
    | true, some index => texts.green ("    # from " ++ texts.redacted index) ++ "\n"
    | _, _ => ""
  text ++ index_text

/-- The text of one entry: its node with the hashes of its name and the distributions at the
sources of its incoming edges. -/
def entry_text (entry : NodeIndex × Node V) : String :=
  self.node_text texts entry.2 (self.resolution.hashes.get entry.2.name)
    (self.resolution.incoming_dists entry.1)

/-- `DisplayResolutionGraph::fmt`: the nodes, sorted by `(node.key(), index)`. -/
def fmt : String :=
  String.join ((self.nodes.insertionSort fun a b => sort_key a ≤ sort_key b).map
    (self.entry_text texts))

end DisplayResolutionGraph

/-! ## The two annotation styles -/

section Annotation

variable (texts : DisplayTexts V) (has_hashes : Bool) (edges : List PackageName)
  (source : List String)

theorem annotation_line_eq_none :
    annotation_parts texts .Line has_hashes edges source = none ↔ edges = [] := by
  cases edges <;> simp [annotation_parts]

theorem annotation_split_eq_none :
    annotation_parts texts .Split has_hashes edges source = none ↔ edges = [] ∧ source = [] := by
  rcases edges with _ | ⟨e, _ | ⟨e', edges⟩⟩ <;> rcases source with _ | ⟨s, _ | ⟨s', source⟩⟩ <;>
    simp [annotation_parts]

/-- The two styles annotate the same nodes exactly when a node without incoming edges has
no external source either: `Line` annotates only nodes with incoming edges, `Split` also
those with external sources. -/
theorem annotation_styles_agree_iff :
    ((annotation_parts texts .Line has_hashes edges source).isNone ↔
      (annotation_parts texts .Split has_hashes edges source).isNone) ↔ (edges ≠ [] ∨ source = []) := by
  rw [Option.isNone_iff_eq_none, Option.isNone_iff_eq_none, annotation_line_eq_none,
    annotation_split_eq_none]
  by_cases he : edges = [] <;> simp [he]

end Annotation

/-- A graph of one node, `flask`, without edges. -/
def flask_graph : ResolutionGraph Nat :=
  ⟨⟨[⟨"flask", .Version 2, none⟩], []⟩, .empty, .empty, .empty, []⟩

/-- Texts that print a distribution by its name, without colour. -/
def plain_texts : DisplayTexts Nat := ⟨fun dist => dist.name, fun _ => "", fun _ => "", id⟩

/-- A node that no other package requires, named by a requirements file, is annotated
`# via -r requirements.in` in the `Split` style but not annotated in the `Line` style. -/
theorem line_style_drops_sources :
    (⟨flask_graph, [], false, false, true, false, .Line,
      ⟨fun _ => some ["-r requirements.in"], fun _ => none⟩⟩ :
        DisplayResolutionGraph Nat).fmt plain_texts = "flask\n" ∧
    (⟨flask_graph, [], false, false, true, false, .Split,
      ⟨fun _ => some ["-r requirements.in"], fun _ => none⟩⟩ :
        DisplayResolutionGraph Nat).fmt plain_texts = "flask\n    # via -r requirements.in\n" := by
  constructor <;> decide

/-! ## The order of the entries -/

section Sorting

theorem sorted_insertionSort_key {α β : Type} [LinearOrder β] (f : α → β) (l : List α) :
    (l.insertionSort fun a b => f a ≤ f b).Sorted fun a b => f a ≤ f b :=
  haveI : IsTotal α (fun a b => f a ≤ f b) := ⟨fun _ _ => le_total _ _⟩
  haveI : IsTrans α (fun a b => f a ≤ f b) := ⟨fun _ _ _ => le_trans⟩
  List.sorted_insertionSort _ l

/-- Two orders of one list sort to the same list by an injective key. -/
theorem insertionSort_eq_of_perm {α β : Type} [LinearOrder β] (f : α → β)
    (hf : Function.Injective f) {l₁ l₂ : List α} (h : l₁.Perm l₂) :
    l₁.insertionSort (fun a b => f a ≤ f b) = l₂.insertionSort (fun a b => f a ≤ f b) :=
  haveI : IsAntisymm α (fun a b => f a ≤ f b) := ⟨fun _ _ h h' => hf (le_antisymm h h')⟩
  List.eq_of_perm_of_sorted
    (((List.perm_insertionSort _ _).trans h).trans (List.perm_insertionSort _ _).symm)
    (sorted_insertionSort_key f l₁) (sorted_insertionSort_key f l₂)

/-- A list sorted by an injective key, with no two equal neighbours, is strictly sorted. -/
theorem sorted_lt_of_chain' {α β : Type} [LinearOrder β] {f : α → β}
    (hf : Function.Injective f) :
    ∀ {l : List α}, l.Sorted (fun a b => f a ≤ f b) → l.Chain' (· ≠ ·) →
      l.Sorted fun a b => f a < f b
  | [], _, _ => List.sorted_nil
  | [a], _, _ => List.sorted_singleton a
  | a :: b :: l, hs, hc => by
    have hab : f a < f b := lt_of_le_of_ne (List.rel_of_sorted_cons hs b (List.mem_cons_self _ _))
      fun h => (List.chain'_cons.1 hc).1 (hf h)
    have ih := sorted_lt_of_chain' hf hs.of_cons (List.chain'_cons.1 hc).2
    refine List.sorted_cons.2 ⟨fun c hc' => ?_, ih⟩
    rcases List.mem_cons.1 hc' with rfl | hc'
    · exact hab
    · exact hab.trans (List.rel_of_sorted_cons ih c hc')

theorem mem_destutter' {α : Type} [DecidableEq α] {l : List α} {a x : α} :
    x ∈ l.destutter' (· ≠ ·) a ↔ x = a ∨ x ∈ l := by
  induction l generalizing a with
  | nil => simp
  | cons b l ih =>
    rw [List.destutter'_cons]
    by_cases hab : a = b
    · subst hab
      rw [if_neg (not_not.2 rfl), ih, List.mem_cons, ← or_assoc, or_self]
    · rw [if_pos hab, List.mem_cons, ih, List.mem_cons]

theorem mem_destutter {α : Type} [DecidableEq α] {l : List α} {x : α} :
    x ∈ l.destutter (· ≠ ·) ↔ x ∈ l := by
  cases l with
  | nil => simp [List.destutter_nil]
  | cons a l => rw [List.destutter_cons', mem_destutter', List.mem_cons]

theorem toList_injective : Function.Injective String.toList := fun _ _ h => String.ext h

theorem mem_sort_dedup {l : List String} {x : String} : x ∈ sort_dedup l ↔ x ∈ l := by
  rw [sort_dedup, mem_destutter, (List.perm_insertionSort _ _).mem_iff]

theorem sorted_sort_dedup (l : List String) :
    (sort_dedup l).Sorted fun a b => a.toList < b.toList :=
  sorted_lt_of_chain' toList_injective
    ((sorted_insertionSort_key String.toList l).sublist (List.destutter_sublist _ _))
    (List.destutter_is_chain' _ _)

/-- `sort_dedup` gives lists of the same names, in any order and repeated, one result. -/
theorem sort_dedup_congr {l₁ l₂ : List String} (h : ∀ x, x ∈ l₁ ↔ x ∈ l₂) :
    sort_dedup l₁ = sort_dedup l₂ := by
  have hs₁ := sorted_sort_dedup l₁
  have hs₂ := sorted_sort_dedup l₂
  haveI : IsAntisymm String (fun a b => a.toList < b.toList) :=
    ⟨fun _ _ h h' => absurd (h.trans h') (lt_irrefl _)⟩
  refine List.eq_of_perm_of_sorted ((List.perm_ext_iff_of_nodup
    (hs₁.imp fun h => ne_of_apply_ne String.toList h.ne)
    (hs₂.imp fun h => ne_of_apply_ne String.toList h.ne)).2 fun x => ?_) hs₁ hs₂
  rw [mem_sort_dedup, mem_sort_dedup, h]

theorem NodeKey.ord_injective : Function.Injective NodeKey.ord := by
  rintro (a | a) (b | b) h <;> simp only [NodeKey.ord, toLex_inj, Prod.mk.injEq] at h
  · rw [toList_injective h.2]
  · cases h.1
  · cases h.1
  · rw [toList_injective h.2]

/-- The order of the keys: editables first, by URL, then the others, by name. -/
theorem NodeKey.ord_lt_iff (a b : NodeKey) :
    a.ord < b.ord ↔ match a, b with
      | .Editable url, .Editable url' => url.toList < url'.toList
      | .Editable _, .Distribution _ => True
      | .Distribution _, .Editable _ => False
      | .Distribution name, .Distribution name' => name.toList < name'.toList := by
  cases a <;> cases b <;> simp [NodeKey.ord, Prod.Lex.lt_iff]

/-- On a list whose keys are distinct, sorting by the key commutes with keeping the items of
a property. -/
theorem insertionSort_filter {α β : Type} [LinearOrder β] (f : α → β) (p : α → Bool)
    {l : List α} (hl : (l.map f).Nodup) :
    (l.filter p).insertionSort (fun a b => f a ≤ f b) =
      (l.insertionSort fun a b => f a ≤ f b).filter p := by
  haveI : IsAntisymm α fun a b => f a < f b := ⟨fun _ _ h h' => absurd (h.trans h') (lt_irrefl _)⟩
  have hstrict : ∀ {m : List α}, (m.map f).Nodup → m.Sorted (fun a b => f a ≤ f b) →
      m.Sorted fun a b => f a < f b :=
    fun hm hs => (hs.and (List.pairwise_map.1 hm)).imp fun ⟨h, h'⟩ => lt_of_le_of_ne h h'
  have hsort := List.perm_insertionSort (fun a b => f a ≤ f b) l
  have hfilter : ((l.filter p).map f).Nodup := hl.sublist ((List.filter_sublist l).map f)
  refine List.eq_of_perm_of_sorted ((List.perm_insertionSort _ _).trans (hsort.filter p).symm)
    (hstrict (((List.perm_insertionSort _ _).map f).nodup_iff.2 hfilter)
      (sorted_insertionSort_key f _))
    (hstrict (((hsort.map f).nodup_iff.2 hl).sublist ((List.filter_sublist _).map f))
      ((sorted_insertionSort_key f l).filter p))

/-- Sorted by key and index, entries of distinct keys come in the order of their keys. -/
theorem pairwise_sort_nodes (l : List (NodeIndex × Node V))
    (hkeys : (l.map fun e => e.2.key).Nodup) :
    (l.insertionSort fun a b => sort_key a ≤ sort_key b).Pairwise
      fun a b => a.2.key.ord < b.2.key.ord := by
  have hperm := List.perm_insertionSort (fun a b => sort_key a ≤ sort_key b) l
  have hne := List.pairwise_map.1 ((hperm.map fun e => e.2.key).nodup_iff.2 hkeys)
  refine ((sorted_insertionSort_key sort_key l).and hne).imp fun {a b} ⟨hle, hab⟩ => ?_
  rcases (Prod.Lex.le_iff _ _).1 hle with h | ⟨h, -⟩
  · exact h
  · exact absurd (NodeKey.ord_injective h) hab

end Sorting

/-! ## The entries that `fmt` writes -/

/-- Two nodes that `fmt` prints alike: one editable, or one distribution with the same
extras in any order and repeated. -/
def Node.Alike : Node V → Node V → Prop
  | .Editable name editable, node => node = .Editable name editable
  | .Distribution name dist extras, .Distribution name' dist' extras' =>
    name = name' ∧ dist = dist' ∧ ∀ x, x ∈ extras ↔ x ∈ extras'
  | .Distribution _ _ _, .Editable _ _ => False

/-- No two nodes of editables share a verbatim URL. -/
def ResolutionGraph.EditableUrlsDistinct (g : ResolutionGraph V) : Prop :=
  ∀ d ∈ g.petgraph.nodes, ∀ d' ∈ g.petgraph.nodes, ∀ e e' : LocalEditable,
    (g.editables.get d.name).map Prod.fst = some e →
    (g.editables.get d'.name).map Prod.fst = some e' → e.verbatim = e'.verbatim → d.name = d'.name

section Entries

variable (self : DisplayResolutionGraph V) (texts : DisplayTexts V)

theorem verbatim_congr {name : PackageName} {dist : ResolvedDist V}
    {extras extras' : List ExtraName} (h : ∀ x, x ∈ extras ↔ x ∈ extras') :
    (Node.Distribution name dist extras).verbatim texts =
      (Node.Distribution name dist extras').verbatim texts := by
  rcases extras with _ | ⟨x, extras⟩ <;> rcases extras' with _ | ⟨y, extras'⟩
  · rfl
  · exact absurd ((h y).2 (List.mem_cons_self _ _)) (List.not_mem_nil _)
  · exact absurd ((h x).1 (List.mem_cons_self _ _)) (List.not_mem_nil _)
  · simp only [Node.verbatim, sort_dedup_congr h]

theorem sorted_names_eq {incoming incoming' : List (ResolvedDist V)}
    (h : (incoming.map ResolvedDist.name).Perm (incoming'.map ResolvedDist.name)) :
    (incoming.insertionSort fun a b => a.name.toList ≤ b.name.toList).map ResolvedDist.name =
      (incoming'.insertionSort fun a b => a.name.toList ≤ b.name.toList).map
        ResolvedDist.name := by
  rw [List.map_insertionSort _ (fun a b : String => a.toList ≤ b.toList) _ _
      fun _ _ _ _ => Iff.rfl,
    List.map_insertionSort _ (fun a b : String => a.toList ≤ b.toList) _ _
      fun _ _ _ _ => Iff.rfl]
  exact insertionSort_eq_of_perm String.toList toList_injective h

/-- What `fmt` writes for a node depends on its extras only through their set, and on its
incoming edges only through the names of their sources. -/
theorem node_text_congr {node node' : Node V} (hnode : node.Alike node')
    (hashes : Option (List HashDigest)) {incoming incoming' : List (ResolvedDist V)}
    (hincoming : (incoming.map ResolvedDist.name).Perm (incoming'.map ResolvedDist.name)) :
    self.node_text texts node hashes incoming = self.node_text texts node' hashes incoming' := by
  have hedges := sorted_names_eq hincoming
  match node, node', hnode with
  | .Editable _ _, _, rfl => simp only [DisplayResolutionGraph.node_text, hedges]
  | .Distribution _ _ _, .Distribution _ _ _, ⟨rfl, rfl, h⟩ =>
    simp only [DisplayResolutionGraph.node_text, hedges, verbatim_congr texts h, Node.index]

@[simp] theorem node_text_resolution (g : ResolutionGraph V) :
    { self with resolution := g }.node_text texts = self.node_text texts := rfl

/-- A distribution has alike nodes in the displays of two graphs with the same editables and,
for each name, the same extras. -/
theorem node_alike {g g' : ResolutionGraph V} (hed : g.editables = g'.editables)
    (hx : ∀ n x, x ∈ (g.extras.get n).getD [] ↔ x ∈ (g'.extras.get n).getD [])
    (dist : ResolvedDist V) :
    ({ self with resolution := g }.node dist).Alike ({ self with resolution := g' }.node dist) := by
  unfold DisplayResolutionGraph.node
  simp only [hed]
  split
  · rfl
  · split
    · exact ⟨rfl, rfl, hx dist.name⟩
    · exact ⟨rfl, rfl, fun _ => Iff.rfl⟩

theorem key_node (dist : ResolvedDist V) :
    (self.node dist).key = match self.resolution.editables.get dist.name with
      | some (editable, _, _) => .Editable editable.verbatim
      | none => .Distribution dist.name := by
  unfold DisplayResolutionGraph.node
  split
  · rfl
  · split <;> rfl

theorem name_node (dist : ResolvedDist V) : (self.node dist).name = dist.name := by
  unfold DisplayResolutionGraph.node
  split
  · rfl
  · split <;> rfl

theorem mem_nodes {index : NodeIndex} {node : Node V} :
    (index, node) ∈ self.nodes ↔ ∃ dist, self.resolution.petgraph.nodes[index]? = some dist ∧
      dist.name ∉ self.no_emit_packages ∧ node = self.node dist := by
  simp only [DisplayResolutionGraph.nodes, List.mem_filterMap, Prod.exists,
    List.mem_enum_iff_getElem?]
  constructor
  · rintro ⟨i, dist, hd, he⟩
    split at he
    · cases he
    · cases he; exact ⟨dist, hd, ‹_›, rfl⟩
  · rintro ⟨dist, hd, hn, rfl⟩
    exact ⟨index, dist, hd, by simp [hn]⟩

theorem nodup_indices : (self.nodes.map Prod.fst).Nodup := by
  have : (self.resolution.petgraph.nodes.enum.map Prod.fst).Nodup := by
    rw [List.enum_map_fst]; exact List.nodup_range _
  refine List.pairwise_map.2 (List.pairwise_map.1 this |>.filterMap _ ?_)
  rintro ⟨i, d⟩ ⟨i', d'⟩ hne b hb b' hb'
  simp only [Option.mem_def] at hb hb'
  split at hb <;> split at hb' <;> cases hb <;> cases hb'
  exact hne

/-- The nodes, mapped, are the graph's nodes not in `no_emit_packages`, mapped by a function
that does not depend on their indices. -/
theorem map_nodes {β : Type} (f : NodeIndex × Node V → β) (g : ResolvedDist V → β)
    (h : ∀ i dist, self.resolution.petgraph.nodes[i]? = some dist → f (i, self.node dist) = g dist) :
    self.nodes.map f = self.resolution.petgraph.nodes.filterMap fun dist =>
      if dist.name ∈ self.no_emit_packages then none else some (g dist) := by
  rw [DisplayResolutionGraph.nodes, List.map_filterMap]
  conv_rhs => rw [← List.enum_map_snd self.resolution.petgraph.nodes, List.filterMap_map]
  refine List.filterMap_congr fun ⟨i, d⟩ hid => ?_
  simp only [Function.comp]
  split
  · rfl
  · rw [Option.map_some', h i d (List.mem_enum_iff_getElem?.1 hid)]

theorem node_key_ne (hurls : self.resolution.EditableUrlsDistinct)
    {dist dist' : ResolvedDist V} (hd : dist ∈ self.resolution.petgraph.nodes)
    (hd' : dist' ∈ self.resolution.petgraph.nodes) (hne : dist.name ≠ dist'.name) :
    (self.node dist).key ≠ (self.node dist').key := by
  rw [key_node, key_node]
  rcases he : self.resolution.editables.get dist.name with _ | ⟨e, m, r⟩ <;>
    rcases he' : self.resolution.editables.get dist'.name with _ | ⟨e', m', r'⟩ <;>
    simp only [ne_eq, reduceCtorEq, NodeKey.Editable.injEq, NodeKey.Distribution.injEq,
      not_false_eq_true]
  · exact hne
  · exact fun h => hne (hurls dist hd dist' hd' e e' (by simp [he]) (by simp [he']) h)

/-- When node names are distinct and editable URLs too, the entries have distinct keys. -/
theorem nodup_keys (hnames : (self.resolution.petgraph.nodes.map ResolvedDist.name).Nodup)
    (hurls : self.resolution.EditableUrlsDistinct) : (self.nodes.map fun e => e.2.key).Nodup := by
  rw [map_nodes self _ (fun d => (self.node d).key) fun _ _ _ => rfl]
  refine (List.Pairwise.and_mem.1 (List.pairwise_map.1 hnames)).filterMap _ ?_
  rintro d d' ⟨hd, hd', hne⟩ k hk k' hk'
  simp only [Option.mem_def] at hk hk'
  split at hk <;> split at hk' <;> cases hk <;> cases hk'
  exact node_key_ne self hurls hd hd' hne

/-- A node does not depend on the packages left out. -/
theorem node_no_emit (no_emit : List PackageName) (dist : ResolvedDist V) :
    { self with no_emit_packages := no_emit }.node dist = self.node dist := rfl

/-- The entries of a display are those of the same display with no package left out, less
the nodes of the names it leaves out. -/
theorem nodes_no_emit : self.nodes = { self with no_emit_packages := [] }.nodes.filter
    fun e => e.2.name ∉ self.no_emit_packages := by
  simp only [DisplayResolutionGraph.nodes]
  induction self.resolution.petgraph.nodes.enum with
  | nil => rfl
  | cons x l ih =>
    by_cases h : x.2.name ∈ self.no_emit_packages <;>
      simp [List.filterMap_cons, h, ih, List.filter_cons, name_node, node_no_emit]

/-- Leaving packages out only drops their entries: `fmt` writes every other node's entry as
it writes it with no package left out, in the same order. So a package left out is still
named in the `# via` annotations of the packages that it depends on. -/
theorem fmt_no_emit (texts : DisplayTexts V) :
    self.fmt texts = String.join (((({ self with no_emit_packages := [] }.nodes.insertionSort
        fun a b => sort_key a ≤ sort_key b).filter
          fun e : NodeIndex × Node V => e.2.name ∉ self.no_emit_packages).map
      ({ self with no_emit_packages := [] }.entry_text texts))) := by
  have hkeys : ({ self with no_emit_packages := [] }.nodes.map sort_key).Nodup := by
    refine List.Nodup.of_map (fun k : Lex (Lex (ℕ × List Char) × ℕ) => (ofLex k).2) ?_
    rw [List.map_map]
    exact nodup_indices _
  rw [DisplayResolutionGraph.fmt, nodes_no_emit self, insertionSort_filter sort_key _ hkeys]
  rfl

end Entries

/-! ## Two orders of one selection -/

/-- Two orders of one selection and of each of its lists of incompatibilities. -/
structure Reordered (selection₁ selection₂ : SelectedDependencies V)
    (state₁ state₂ : State V) : Prop where
  entries : selection₁.entries.Perm selection₂.entries
  store : state₁.incompatibility_store = state₂.incompatibility_store
  incompatibilities : ∀ p, ((state₁.incompatibilities.get p).getD []).Perm
    ((state₂.incompatibilities.get p).getD [])

theorem Reordered.symm {selection₁ selection₂ : SelectedDependencies V} {state₁ state₂ : State V}
    (h : Reordered selection₁ selection₂ state₁ state₂) :
    Reordered selection₂ selection₁ state₂ state₁ :=
  ⟨h.entries.symm, h.store.symm, fun p => (h.incompatibilities p).symm⟩

theorem Reordered.refl (selection : SelectedDependencies V) (state : State V) :
    Reordered selection selection state state :=
  ⟨.refl _, rfl, fun _ => .refl _⟩

theorem mem_incoming_dists {g : ResolutionGraph V} {index : NodeIndex} {dist : ResolvedDist V} :
    dist ∈ g.incoming_dists index ↔
      ∃ e ∈ g.petgraph.edges, e.target = index ∧ g.petgraph.nodes[e.source]? = some dist := by
  simp [ResolutionGraph.incoming_dists, Graph.incoming, and_assoc]

section Runs

variable [LinearOrder V] {ext : Externals} {pins : FilePins V}
  {packages : PackageName → Option (VersionsResponse V)}
  {distributions : VersionId V → Option MetadataResponse}
  {preferences : Preferences V} {editables : Editables}

section One

variable {selection : SelectedDependencies V} {state : State V} {g : ResolutionGraph V}

theorem names_from_state
    (h : from_state ext selection pins packages distributions state preferences editables = .ok g) :
    g.petgraph.nodes.map ResolvedDist.name = (base_entries selection.entries).map Prod.fst := by
  obtain ⟨b, hb, -, hnodes, -⟩ := from_state_ok h
  rw [hnodes]
  exact (node_pass_inverse hb).2.1

/-- The sources of the edges into a node are the packages that depend on its name. -/
theorem mem_incoming_names
    (h : from_state ext selection pins packages distributions state preferences editables = .ok g)
    (hnames : (g.petgraph.nodes.map ResolvedDist.name).Nodup) {index : NodeIndex}
    {dist : ResolvedDist V} (hi : g.petgraph.nodes[index]? = some dist) (m : PackageName) :
    m ∈ (g.incoming_dists index).map ResolvedDist.name ↔
      ∃ r, DependsOn state selection.entries m dist.name r := by
  obtain ⟨b, hb, -, hnodes, -⟩ := from_state_ok h
  have hinv := (node_pass_inverse hb).1
  rw [← names_from_state h] at hinv
  have hat : ∀ n k, b.inverse.get n = some k → ∃ a, g.petgraph.nodes[k]? = some a ∧ a.name = n :=
    fun n k hk => hnodes ▸ node_pass_node hb hk
  have hdi : b.inverse.get dist.name = some index :=
    hinv.get_of_getElem? hnames (by rw [List.getElem?_map, hi]; rfl)
  simp only [List.mem_map, mem_incoming_dists]
  constructor
  · rintro ⟨a, ⟨e, he, rfl, ha⟩, rfl⟩
    obtain ⟨n, m, r, hd, hn, hm⟩ :=
      (mem_pairs_from_state h hb e.source e.target).1 (List.mem_map_of_mem _ he)
    obtain ⟨a', ha', rfl⟩ := hat _ _ hn
    obtain ⟨c, hc, rfl⟩ := hat _ _ hm
    rw [ha] at ha'
    rw [hi] at hc
    cases ha'
    cases hc
    exact ⟨r, hd⟩
  · rintro ⟨r, hd⟩
    obtain ⟨hn, -⟩ := dependency_edge_isSome.1
      ((from_state_petgraph h hb).2 _ (mem_dependencies.2 hd))
    obtain ⟨k, hk⟩ := Option.isSome_iff_exists.1 hn
    obtain ⟨e, he, hek⟩ := List.mem_map.1
      ((mem_pairs_from_state h hb k index).2 ⟨m, dist.name, r, hd, hk, hdi⟩)
    obtain ⟨a, ha, rfl⟩ := hat _ _ hk
    simp only [Prod.mk.injEq] at hek
    exact ⟨a, ⟨e, he, hek.2, hek.1 ▸ ha⟩, rfl⟩

theorem nodup_incoming_names
    (h : from_state ext selection pins packages distributions state preferences editables = .ok g)
    (hnames : (g.petgraph.nodes.map ResolvedDist.name).Nodup) (index : NodeIndex) :
    ((g.incoming_dists index).map ResolvedDist.name).Nodup := by
  obtain ⟨b, hb, -⟩ := from_state_ok h
  have hsources := Graph.nodup_incoming_sources (nodup_pairs_from_state h hb) index
  rw [ResolutionGraph.incoming_dists, List.map_filterMap]
  refine (List.pairwise_map.1 hsources).filterMap _ fun e e' hne n hn n' hn' heq => hne ?_
  simp only [Option.mem_def, Option.map_eq_some'] at hn hn'
  obtain ⟨a, ha, rfl⟩ := hn
  obtain ⟨a', ha', rfl⟩ := hn'
  have hs : (g.petgraph.nodes.map ResolvedDist.name)[e.source]? = some a.name := by
    rw [List.getElem?_map, ha]; rfl
  have hs' : (g.petgraph.nodes.map ResolvedDist.name)[e'.source]? = some a.name := by
    rw [List.getElem?_map, ha', heq]; rfl
  exact List.getElem?_inj (List.getElem?_eq_some_iff.1 hs).1 hnames (hs.trans hs'.symm)

end One

variable {selection₁ selection₂ : SelectedDependencies V} {state₁ state₂ : State V}
  {g₁ g₂ : ResolutionGraph V}

/-- Two orders of one selection enable the same extras for each name, in another order. -/
theorem extras_reordered (hr : Reordered selection₁ selection₂ state₁ state₂)
    (h₁ : from_state ext selection₁ pins packages distributions state₁ preferences editables = .ok g₁)
    (h₂ : from_state ext selection₂ pins packages distributions state₂ preferences editables = .ok g₂)
    (n : PackageName) : ((g₁.extras.get n).getD []).Perm ((g₂.extras.get n).getD []) := by
  obtain ⟨b₁, hb₁, -, -, -, hx₁, -⟩ := from_state_ok h₁
  obtain ⟨b₂, hb₂, -, -, -, hx₂, -⟩ := from_state_ok h₂
  rw [hx₁, hx₂, (node_pass_enabled hb₁).1, (node_pass_enabled hb₂).1]
  exact (((hr.entries.filterMap _).filter _).filter _).map _

/-- Two orders of one selection, without two base entries of one name, give graphs with the
same nodes in another order, and the same hashes for the name of each. -/
theorem nodes_reordered (hr : Reordered selection₁ selection₂ state₁ state₂)
    (h₁ : from_state ext selection₁ pins packages distributions state₁ preferences editables = .ok g₁)
    (h₂ : from_state ext selection₂ pins packages distributions state₂ preferences editables = .ok g₂)
    (hnames : (g₁.petgraph.nodes.map ResolvedDist.name).Nodup) :
    g₁.petgraph.nodes.Perm g₂.petgraph.nodes ∧
      ∀ d ∈ g₁.petgraph.nodes, g₁.hashes.get d.name = g₂.hashes.get d.name := by
  obtain ⟨b₁, hb₁, -, hn₁, hh₁, -⟩ := from_state_ok h₁
  obtain ⟨b₂, hb₂, -, hn₂, hh₂, -⟩ := from_state_ok h₂
  have hbase : (base_entries selection₁.entries).Perm (base_entries selection₂.entries) :=
    hr.entries.filterMap _
  have hu₁ : ((base_entries selection₁.entries).map Prod.fst).Nodup := names_from_state h₁ ▸ hnames
  have hu₂ : ((base_entries selection₂.entries).map Prod.fst).Nodup := (hbase.map _).nodup_iff.1 hu₁
  have hf₁ := node_pass_nodes hu₁ hb₁
  have hf₂ := node_pass_nodes hu₂ hb₂
  have hR : Relator.RightUnique fun (x : PackageName × Option VerbatimUrl × V) dist =>
      BaseDist ext pins editables x.1 x.2.1 x.2.2 dist :=
    fun _ _ _ h h' => baseDist_unique ext pins editables h h'
  obtain ⟨l, hl, hperm⟩ : Relation.Comp (List.Forall₂ fun (x : PackageName × Option VerbatimUrl × V)
      dist => BaseDist ext pins editables x.1 x.2.1 x.2.2 dist) List.Perm
        (base_entries selection₁.entries) b₂.petgraph.nodes := by
    rw [List.forall₂_comp_perm_eq_perm_comp_forall₂]
    exact ⟨_, hbase, hf₂.imp fun _ _ h => h.1⟩
  have hl₁ : b₁.petgraph.nodes = l := List.right_unique_forall₂' hR (hf₁.imp fun _ _ h => h.1) hl
  rw [hn₁, hn₂, hh₁, hh₂, hl₁]
  refine ⟨hperm, fun d hd => ?_⟩
  obtain ⟨x, hx, hxd, hx₁⟩ := exists_of_mem_forall₂_right hf₁ (hl₁ ▸ hd)
  obtain ⟨y, hy, hyd, hy₂⟩ := exists_of_mem_forall₂_right hf₂ (hperm.subset hd)
  have hxy : x = y := List.inj_on_of_nodup_map hu₂ (hbase.subset hx) hy
    ((baseDist_name ext pins editables hxd).symm.trans (baseDist_name ext pins editables hyd))
  subst hxy
  rw [baseDist_name ext pins editables hxd, hx₁, hy₂]

/-- A distribution at index `i` of the one graph and at index `j` of the other has the same
key and the same text in both displays. -/
theorem entry_reordered (hr : Reordered selection₁ selection₂ state₁ state₂)
    (h₁ : from_state ext selection₁ pins packages distributions state₁ preferences editables = .ok g₁)
    (h₂ : from_state ext selection₂ pins packages distributions state₂ preferences editables = .ok g₂)
    (hnames : (g₁.petgraph.nodes.map ResolvedDist.name).Nodup)
    (self : DisplayResolutionGraph V) (texts : DisplayTexts V) {i j : NodeIndex}
    {d : ResolvedDist V} (hi : g₁.petgraph.nodes[i]? = some d)
    (hj : g₂.petgraph.nodes[j]? = some d) :
    ({ self with resolution := g₁ }.node d).key = ({ self with resolution := g₂ }.node d).key ∧
      { self with resolution := g₁ }.entry_text texts (i, { self with resolution := g₁ }.node d) =
        { self with resolution := g₂ }.entry_text texts
          (j, { self with resolution := g₂ }.node d) := by
  obtain ⟨-, -, -, -, -, -, -, he₁⟩ := from_state_ok h₁
  obtain ⟨-, -, -, -, -, -, -, he₂⟩ := from_state_ok h₂
  have hnodes := nodes_reordered hr h₁ h₂ hnames
  have hnames₂ := (hnodes.1.map ResolvedDist.name).nodup_iff.1 hnames
  refine ⟨by simp only [key_node, he₁, he₂], ?_⟩
  simp only [DisplayResolutionGraph.entry_text, name_node, node_text_resolution,
    hnodes.2 d (List.getElem?_mem hi)]
  refine node_text_congr self texts (node_alike self (he₁.trans he₂.symm)
    (fun n _ => (extras_reordered hr h₁ h₂ n).mem_iff) d) _
    ((List.perm_ext_iff_of_nodup (nodup_incoming_names h₁ hnames i)
      (nodup_incoming_names h₂ hnames₂ j)).2 fun m => ?_)
  rw [mem_incoming_names h₁ hnames hi, mem_incoming_names h₂ hnames₂ hj]
  exact exists_congr fun r => dependsOn_perm hr.entries hr.store hr.incompatibilities

/-- Two orders of one selection, without two nodes of one name or two editables of one URL,
render to the same text. -/
theorem fmt_reordered (hr : Reordered selection₁ selection₂ state₁ state₂)
    (h₁ : from_state ext selection₁ pins packages distributions state₁ preferences editables = .ok g₁)
    (h₂ : from_state ext selection₂ pins packages distributions state₂ preferences editables = .ok g₂)
    (hnames : (g₁.petgraph.nodes.map ResolvedDist.name).Nodup)
    (hurls : g₁.EditableUrlsDistinct) (self : DisplayResolutionGraph V) (texts : DisplayTexts V) :
    { self with resolution := g₁ }.fmt texts = { self with resolution := g₂ }.fmt texts := by
  classical
  obtain ⟨-, -, -, -, -, -, -, he₁⟩ := from_state_ok h₁
  obtain ⟨-, -, -, -, -, -, -, he₂⟩ := from_state_ok h₂
  have hnodes := nodes_reordered hr h₁ h₂ hnames
  have hnames₂ := (hnodes.1.map ResolvedDist.name).nodup_iff.1 hnames
  have hurls₂ : g₂.EditableUrlsDistinct := fun d hd d' hd' e e' he he' =>
    hurls d (hnodes.1.mem_iff.2 hd) d' (hnodes.1.mem_iff.2 hd') e e'
      (by rwa [he₁, ← he₂]) (by rwa [he₁, ← he₂])
  let F (s : DisplayResolutionGraph V) (e : NodeIndex × Node V) :
      Lex (ℕ × List Char) × String := (e.2.key.ord, s.entry_text texts e)
  let sorted (s : DisplayResolutionGraph V) := s.nodes.insertionSort fun a b => sort_key a ≤ sort_key b
  have hs : ∀ s : DisplayResolutionGraph V, (s.resolution.petgraph.nodes.map ResolvedDist.name).Nodup →
      s.resolution.EditableUrlsDistinct → ((sorted s).map (F s)).Sorted fun a b => a.1 < b.1 :=
    fun s hn hu => List.pairwise_map.2 (pairwise_sort_nodes _ (nodup_keys s hn hu))
  let Ψ (d : ResolvedDist V) := F { self with resolution := g₁ }
    (g₁.petgraph.nodes.indexOf d, { self with resolution := g₁ }.node d)
  have hperm : ({ self with resolution := g₁ }.nodes.map (F { self with resolution := g₁ })).Perm
      ({ self with resolution := g₂ }.nodes.map (F { self with resolution := g₂ })) := by
    rw [map_nodes _ _ Ψ fun i d hi => ?one, map_nodes _ _ Ψ fun j d hj => ?two]
    · exact hnodes.1.filterMap _
    case one =>
      obtain ⟨hk, ht⟩ := entry_reordered (Reordered.refl _ _) h₁ h₁ hnames self texts hi
        (List.getElem?_indexOf (List.getElem?_mem hi))
      exact Prod.ext (congrArg NodeKey.ord hk) ht
    case two =>
      obtain ⟨hk, ht⟩ := entry_reordered hr h₁ h₂ hnames self texts
        (List.getElem?_indexOf (hnodes.1.mem_iff.2 (List.getElem?_mem hj))) hj
      exact (Prod.ext (congrArg NodeKey.ord hk) ht).symm
  haveI : IsAntisymm (Lex (ℕ × List Char) × String) fun a b => a.1 < b.1 :=
    ⟨fun _ _ h h' => absurd (h.trans h') (lt_irrefl _)⟩
  have heq := List.eq_of_perm_of_sorted ((((List.perm_insertionSort _ _).map _).trans hperm).trans
    ((List.perm_insertionSort _ _).map _).symm) (hs _ hnames hurls) (hs _ hnames₂ hurls₂)
  calc { self with resolution := g₁ }.fmt texts
      = String.join (((sorted { self with resolution := g₁ }).map
          (F { self with resolution := g₁ })).map Prod.snd) := by rw [List.map_map]; rfl
    _ = { self with resolution := g₂ }.fmt texts := by rw [heq, List.map_map]; rfl

end Runs

/-- `fmt` writes one entry for each node whose name is not in `no_emit_packages`, in the
strict order of their keys when the nodes' names and their editables' URLs are distinct;
the text of an entry depends on its node only up to the order and repetition of its extras,
and on its incoming edges only through the names of their sources; so two orders of one
selection, and of its lists of incompatibilities, render to the same text. -/
theorem fmt_canonical [LinearOrder V] :
    (∀ (self : DisplayResolutionGraph V) (texts : DisplayTexts V),
      (self.resolution.petgraph.nodes.map ResolvedDist.name).Nodup →
      self.resolution.EditableUrlsDistinct →
      ∃ entries : List (NodeIndex × Node V),
        self.fmt texts = String.join (entries.map (self.entry_text texts)) ∧
        (entries.map Prod.fst).Nodup ∧
        (∀ index node, (index, node) ∈ entries ↔ ∃ dist,
          self.resolution.petgraph.nodes[index]? = some dist ∧
          dist.name ∉ self.no_emit_packages ∧ node = self.node dist) ∧
        entries.Pairwise fun a b => a.2.key.ord < b.2.key.ord) ∧
    (∀ (self : DisplayResolutionGraph V) (texts : DisplayTexts V) (node node' : Node V)
      (hashes : Option (List HashDigest)) (incoming incoming' : List (ResolvedDist V)),
      node.Alike node' → (incoming.map ResolvedDist.name).Perm (incoming'.map ResolvedDist.name) →
      self.node_text texts node hashes incoming = self.node_text texts node' hashes incoming') ∧
    (∀ (ext : Externals) (pins : FilePins V) (packages : PackageName → Option (VersionsResponse V))
      (distributions : VersionId V → Option MetadataResponse) (preferences : Preferences V)
      (editables : Editables) (selection₁ selection₂ : SelectedDependencies V)
      (state₁ state₂ : State V) (g₁ g₂ : ResolutionGraph V),
      Reordered selection₁ selection₂ state₁ state₂ →
      from_state ext selection₁ pins packages distributions state₁ preferences editables = .ok g₁ →
      from_state ext selection₂ pins packages distributions state₂ preferences editables = .ok g₂ →
      (g₁.petgraph.nodes.map ResolvedDist.name).Nodup → g₁.EditableUrlsDistinct →
      ∀ (self : DisplayResolutionGraph V) (texts : DisplayTexts V),
        { self with resolution := g₁ }.fmt texts = { self with resolution := g₂ }.fmt texts) := by
  refine ⟨fun self texts hnames hurls => ?_, fun self texts _ _ hashes _ _ hnode hincoming =>
    node_text_congr self texts hnode hashes hincoming,
    fun _ _ _ _ _ _ _ _ _ _ _ _ hr h₁ h₂ hnames hurls => fmt_reordered hr h₁ h₂ hnames hurls⟩
  have hperm := List.perm_insertionSort (fun a b => sort_key a ≤ sort_key b) self.nodes
  refine ⟨_, rfl, (hperm.map _).nodup_iff.2 (nodup_indices self), fun index node => ?_,
    pairwise_sort_nodes _ (nodup_keys self hnames hurls)⟩
  rw [hperm.mem_iff, mem_nodes]

/-- The sample's selection in the other order. -/
def sample_selection_reversed : SelectedDependencies Nat :=
  ⟨sample_selection.entries.reverse, by decide⟩

theorem fmt_canonical_sample : ∃ g₁ g₂ : ResolutionGraph Nat,
    Reordered sample_selection sample_selection_reversed sample_state sample_state ∧
    from_state sample_externals sample_selection sample_pins sample_packages sample_distributions
      sample_state sample_preferences .empty = .ok g₁ ∧
    from_state sample_externals sample_selection_reversed sample_pins sample_packages
      sample_distributions sample_state sample_preferences .empty = .ok g₂ ∧
    (g₁.petgraph.nodes.map ResolvedDist.name).Nodup ∧ g₁.EditableUrlsDistinct ∧
    ∀ (self : DisplayResolutionGraph Nat) (texts : DisplayTexts Nat),
      { self with resolution := g₁ }.fmt texts = { self with resolution := g₂ }.fmt texts :=
  have hr : Reordered sample_selection sample_selection_reversed sample_state sample_state :=
    ⟨List.reverse_perm _ |>.symm, rfl, fun _ => .refl _⟩
  have hurls : ResolutionGraph.EditableUrlsDistinct
      ⟨_, _, _, .empty, _⟩ := fun _ _ _ _ _ _ he => by simp at he
  ⟨_, _, hr, rfl, rfl, by decide, hurls, fmt_canonical.2.2 sample_externals sample_pins
    sample_packages sample_distributions sample_preferences .empty _ _ _ _ _ _ hr rfl rfl
    (by decide) hurls⟩

end uv_resolver.resolution
