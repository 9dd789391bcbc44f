import CanonicalTree.Profile
import CanonicalTree.Proofs.Compiler
import CanonicalTree.Proofs.Pipeline
import CanonicalTree.Proofs.Walk

/-!
# From the compiler's trees to canonical trees

What the pipeline for the compiler does to a whole document. It fails, once the native tree is
there, exactly on identifiers whose name is null and on declarations whose slots contend for a name
(`run_fails_iff`). Otherwise nothing of the document is lost: node for node and in the same order,
the canonical tree is the image of the native one (`run_image`). None of the native kinds is left
(`normalizeResponse_clean`), and there is nothing to do for a second pass of either phase
(`apply_idempotent`).
-/

namespace CanonicalTree

namespace Compiler

/-! ## A document -/

/-- A class with an escaped name, and a private method in it. -/
def classRaw : Json :=
  .obj [("kind", .str "ClassDeclaration"), ("pos", .num (.whole 0)), ("end", .num (.whole 4)),
    ("flags", .arr [.str "export"]),
    ("name", .obj [("kind", .str "Identifier"), ("pos", .num (.whole 1)),
      ("escapedText", .str "___c")]),
    ("members", .arr [.obj [("kind", .str "MethodDeclaration"), ("pos", .num (.whole 3)),
      ("parameters", .arr []),
      ("name", .obj [("kind", .str "PrivateIdentifier"), ("text", .str "#m"),
        ("escapedText", .str "#m")])]])]

def classSource : Source :=
  { bytes := #[0x61, 0x62, 0x0A, 0x63] }

def classNative : Node :=
  { kind := "ClassDeclaration"
    position := some ⟨⟨0, some 1, some 1⟩, some ⟨4, some 2, some 2⟩⟩
    properties := [("export", .bool true)]
    slots := [
      ("name", .single
        { kind := "Identifier"
          position := some { start := ⟨1, some 1, some 2⟩ }
          properties := [("escapedText", .str "___c")] }),
      ("members", .sequence [
        { kind := "MethodDeclaration"
          position := some { start := ⟨3, some 2, some 1⟩ }
          slots := [
            ("parameters", .sequence []),
            ("name", .single
              { kind := "PrivateIdentifier"
                token := some "#m"
                properties := [("escapedText", .str "#m")] })] }])] }

def classCanonical : Node :=
  { kind := "uast:Declaration"
    position := some ⟨⟨0, some 1, some 1⟩, some ⟨4, some 2, some 2⟩⟩
    properties := [
      ("export", .bool true),
      ("declaration_kind", .str "class"),
      ("native_kind", .str "ClassDeclaration")]
    slots := [
      ("name", .single
        { kind := "uast:Identifier"
          token := some "__c"
          position := some { start := ⟨1, some 1, some 2⟩ } }),
      ("body", .sequence [
        { kind := "uast:Declaration"
          position := some { start := ⟨3, some 2, some 1⟩ }
          properties := [
            ("declaration_kind", .str "method"),
            ("native_kind", .str "MethodDeclaration")]
          slots := [
            ("params", .sequence []),
            ("name", .single
              { kind := "uast:Identifier"
                token := some "#m"
                properties := [("private", .bool true)] })] }])] }

theorem classRaw_native :
    (pipeline defaultUnit).run .native classRaw classSource = .ok classNative := rfl

theorem classRaw_semantic :
    (pipeline defaultUnit).run .semantic classRaw classSource = .ok classCanonical := rfl

/-! ## Failures -/

/-- Preprocessing does not change whether slots contend for a name. -/
theorem clashing_named {node other : Node} {slots : Fields Slot}
    (hslots : Slots.forms slots = Slots.forms node.slots) (h : other = named { node with slots }) :
    Clashing other ↔ Clashing node := by
  subst h
  exact nodewise_normalize.forms node slots hslots

/-- A tree can be preprocessed exactly if it holds no nameless identifier. -/
theorem exists_preprocess_iff (tree : Node) :
    (∃ result, preprocess.apply tree = .ok result) ↔
      ∀ part ∈ tree.descendants, ¬ Nameless part := by
  rw [Phase.apply_eq_transform]
  exact nodewise_preprocess.exists_transform_iff tree

/-- A preprocessed tree can be normalized exactly if no declaration of the native tree has slots
that contend for a name. -/
theorem exists_normalize_iff {native tree : Node} (h : preprocess.apply native = .ok tree) :
    (∃ result, normalize.apply tree = .ok result) ↔
      ∀ part ∈ native.descendants, ¬ Clashing part := by
  rw [Phase.apply_eq_transform] at h ⊢
  -- the phase sees the preprocessed nodes, and `hparts` leads from each of them to a native one
  have hparts := nodewise_preprocess.forall₂_descendants h
  rw [nodewise_normalize.exists_transform_iff]
  constructor
  · intro hall part hpart
    obtain ⟨other, hother, slots, hslots, heq⟩ := exists_related_of_mem hparts.flip part hpart
    rw [← clashing_named hslots heq]
    exact hall other hother
  · intro hall other hother
    obtain ⟨part, hpart, slots, hslots, heq⟩ := exists_related_of_mem hparts other hother
    rw [clashing_named hslots heq]
    exact hall part hpart

/-- Once there is a native tree, preprocessing fails exactly if it holds an identifier that has no
token and whose name is null, and the whole pipeline exactly if it holds such an identifier or a
declaration in which two slots contend for a name. -/
theorem run_fails_iff (unit : ColumnUnit) (raw : Json) (source : Source) (native : Node)
    (h : (pipeline unit).run .native raw source = .ok native) :
    ((∃ failure, (pipeline unit).run .semantic raw source = .error failure) ↔
      ∃ part ∈ native.descendants, Nameless part ∨ Clashing part) ∧
    ((∃ failure, (pipeline unit).run .preprocessed raw source = .error failure) ↔
      ∃ part ∈ native.descendants, Nameless part) := by
  have hpreprocess := exists_preprocess_iff native
  have hsemantic : (∃ result, (pipeline unit).run .semantic raw source = .ok result) ↔
      ∀ part ∈ native.descendants, ¬ (Nameless part ∨ Clashing part) := by
    rw [Pipeline.run_semantic h]
    simp only [bind_eq_ok_iff, not_or]
    constructor
    · rintro ⟨result, tree, htree, hresult⟩ part hpart
      exact ⟨hpreprocess.mp ⟨tree, htree⟩ part hpart,
        (exists_normalize_iff htree).mp ⟨result, hresult⟩ part hpart⟩
    · intro hall
      obtain ⟨tree, htree⟩ := hpreprocess.mpr fun part hpart => (hall part hpart).1
      obtain ⟨result, hresult⟩ :=
        (exists_normalize_iff htree).mpr fun part hpart => (hall part hpart).2
      exact ⟨result, tree, htree, hresult⟩
  refine ⟨exists_error_iff hsemantic, ?_⟩
  rw [Pipeline.run_preprocessed h]
  exact exists_error_iff hpreprocess

/-- A method that has its parameters twice. -/
def crowdedRaw : Json :=
  .obj [("kind", .str "MethodDeclaration"),
    ("parameters", .arr [.obj [("kind", .str "Identifier"), ("escapedText", .str "x")]]),
    ("params", .arr [])]

def crowdedNative : Node :=
  { kind := "MethodDeclaration"
    slots := [
      ("parameters", .sequence
        [{ kind := "Identifier", properties := [("escapedText", .str "x")] }]),
      ("params", .sequence [])] }

theorem crowdedRaw_native :
    (pipeline defaultUnit).run .native crowdedRaw classSource = .ok crowdedNative := rfl

/-- The method can be preprocessed, and cannot be normalized. -/
theorem run_fails_iff_crowded :
    (pipeline defaultUnit).run .native crowdedRaw classSource = .ok crowdedNative ∧
    (∃ failure, (pipeline defaultUnit).run .semantic crowdedRaw classSource = .error failure) ∧
    ¬ ∃ failure, (pipeline defaultUnit).run .preprocessed crowdedRaw classSource =
      .error failure := by
  obtain ⟨hsemantic, hpreprocessed⟩ := run_fails_iff _ _ _ _ crowdedRaw_native
  have hclashing : Clashing crowdedNative := by decide
  have hnamed : ∀ part ∈ crowdedNative.descendants, ¬ Nameless part := by decide
  refine ⟨crowdedRaw_native, hsemantic.mpr ?_, fun hfails => ?_⟩
  · exact ⟨crowdedNative, crowdedNative.self_mem_descendants, Or.inr hclashing⟩
  · obtain ⟨part, hpart, hnameless⟩ := hpreprocessed.mp hfails
    exact hnamed part hpart hnameless

/-! ## Images -/

/-- What becomes of a node in the canonical tree: its place in the source stays, its kind is the
canonical one, the token changes only if it is the name of an identifier, the slots keep their order
and forms, and the properties change only by what is noted about declarations and private
identifiers and by the name that has become the token. -/
structure Image (node image : Node) : Prop where
  position_eq : image.position = node.position
  kind_eq : image.kind = canonicalKind node.kind
  token_eq : (∀ name, ¬ HoldsName node name) → image.token = node.token
  token_eq_name : ∀ name, HoldsName node name → image.token = unescaped name
  forms_eq : Slots.forms image.slots =
    (Slots.forms node.slots).map fun entry => (canonicalSlot node.kind entry.1, entry.2)
  properties_eq : image.properties = noted node.kind (unnamedProperties node)

/-- The two phases, one after the other, give the image. -/
theorem image_canonical_named {node : Node} {before after : Fields Slot}
    (hbefore : Slots.forms before = Slots.forms node.slots)
    (hafter : Slots.forms after = Slots.forms before) :
    Image node (canonical { named { node with slots := before } with slots := after }) where
  position_eq := rfl
  kind_eq := rfl
  token_eq h := spelling_of_not_holdsName h
  token_eq_name _ h := spelling_of_holdsName h
  forms_eq := by
    rw [← hbefore, ← hafter]
    simp [canonical, named, Slots.forms]
  properties_eq := rfl

/-- The pipeline loses nothing and adds nothing: the nodes of the canonical tree are, in document
order and one for one, the images of the nodes of the native tree. -/
theorem run_image (unit : ColumnUnit) (raw : Json) (source : Source) (native result : Node)
    (hnative : (pipeline unit).run .native raw source = .ok native)
    (hsemantic : (pipeline unit).run .semantic raw source = .ok result) :
    List.Forall₂ Image native.descendants result.descendants := by
  rw [Pipeline.run_semantic hnative] at hsemantic
  obtain ⟨tree, htree, hresult⟩ := bind_eq_ok_iff.mp hsemantic
  rw [Phase.apply_eq_transform] at htree hresult
  have hnamed := nodewise_preprocess.forall₂_descendants htree
  have hcanonical := nodewise_normalize.forall₂_descendants hresult
  refine forall₂_euclidean ?_ hnamed.flip hcanonical
  rintro _ - node - _ - ⟨before, hbefore, rfl⟩ ⟨after, hafter, rfl⟩
  exact image_canonical_named hbefore hafter

/-- The class and its method, with an escaped and a private name, are images of what they were. -/
theorem run_image_class :
    (pipeline defaultUnit).run .native classRaw classSource = .ok classNative ∧
    (pipeline defaultUnit).run .semantic classRaw classSource = .ok classCanonical ∧
    List.Forall₂ Image classNative.descendants classCanonical.descendants :=
  ⟨classRaw_native, classRaw_semantic, run_image _ _ _ _ _ classRaw_native classRaw_semantic⟩

/-! ## Canonical trees -/

/-- No native kind is left after normalizing. -/
theorem kind_notMem_of_normalize {tree result : Node} (h : normalize.apply tree = .ok result) :
    ∀ part ∈ result.descendants, part.kind ∉ nativeKinds := by
  rw [Phase.apply_eq_transform] at h
  intro part hpart
  obtain ⟨node, -, slots, -, rfl⟩ :=
    exists_related_of_mem (nodewise_normalize.forall₂_descendants h) part hpart
  exact canonicalKind_notMem_nativeKinds node.kind

/-- Each phase leaves nothing for a second pass to do. -/
theorem apply_idempotent :
    (∀ tree result, preprocess.apply tree = .ok result →
      preprocess.apply result = .ok result) ∧
    (∀ tree result, normalize.apply tree = .ok result →
      normalize.apply result = .ok result) := by
  constructor
  · intro tree result h
    rw [Phase.apply_eq_transform] at h
    exact (nodewise_preprocess.settled unmatched_named h).apply
  · intro tree result h
    rw [Phase.apply_eq_transform] at h
    exact (nodewise_normalize.settled unmatched_canonical h).apply

/-- Both phases have something to do on the class, and nothing the second time. -/
theorem apply_idempotent_class :
    ∃ tree, preprocess.apply classNative = .ok tree ∧ preprocess.apply tree = .ok tree ∧
      normalize.apply tree = .ok classCanonical ∧
      normalize.apply classCanonical = .ok classCanonical := by
  obtain ⟨hpreprocess, hnormalize⟩ := apply_idempotent
  have hphases := (Pipeline.run_semantic classRaw_native).symm.trans classRaw_semantic
  obtain ⟨tree, htree, hcanonical⟩ := bind_eq_ok_iff.mp hphases
  exact ⟨tree, htree, hpreprocess _ _ htree, hcanonical, hnormalize _ _ hcanonical⟩

end Compiler

namespace Profile

variable {profile : Profile} {response : Response} {source : Source} {raw : Json}

theorem check_eq_ok {tree : Node}
    (h : ∀ part ∈ tree.descendants, part.kind ∉ profile.forbidden) :
    profile.check tree = .ok () := by
  rw [check, Node.findKinds_eq_nil_iff.mpr h]

theorem rawTree_of_ok (h : response.tree = .ok raw) : rawTree response = .ok raw := by
  rw [rawTree, h]

/-- A response without a tree is refused for what is wrong with it. -/
theorem normalizeResponse_of_no_tree {fault : ResponseFault} (mode : Mode)
    (h : response.tree = .error fault) :
    profile.normalizeResponse mode response source = .error (.response fault) := by
  simp only [normalizeResponse, rawTree, h]
  rfl

/-- A failure of the pipeline is the failure of the response. -/
theorem normalizeResponse_of_failure {mode : Mode} {failure : Failure}
    (h : response.tree = .ok raw)
    (hrun : profile.pipeline.run mode raw source = .error failure) :
    profile.normalizeResponse mode response source = .error (.stage failure) := by
  have htree : profile.run mode raw source = .error (.stage failure) := by
    rw [run, hrun]
  simp only [normalizeResponse, rawTree_of_ok h, bind, Except.bind, htree]

/-- A tree from the pipeline that passes the check is the result. -/
theorem normalizeResponse_of_ok {tree : Node} (h : response.tree = .ok raw)
    (hrun : profile.pipeline.run .semantic raw source = .ok tree)
    (hcheck : profile.check tree = .ok ()) :
    profile.normalizeResponse .semantic response source = .ok tree := by
  have htree : profile.run .semantic raw source = .ok tree := by
    rw [run, hrun]
  simp only [normalizeResponse, rawTree_of_ok h, bind, Except.bind, htree, hcheck]
  rfl

/-- The check for kinds that are left over never refuses a tree: when the pipeline succeeds, no node
has a native kind, and the response is normalized to that tree. -/
theorem normalizeResponse_clean (unit : ColumnUnit) (response : Response) (source : Source) :
    (∀ first paths, (standard unit).normalizeResponse .semantic response source ≠
      .error (.leftOver first paths)) ∧
    ∀ raw tree, (Compiler.pipeline unit).run .semantic raw source = .ok tree →
      (∀ part ∈ tree.descendants, part.kind ∉ Compiler.nativeKinds) ∧
      (response.tree = .ok raw →
        (standard unit).normalizeResponse .semantic response source = .ok tree) := by
  have hclean : ∀ raw tree, (Compiler.pipeline unit).run .semantic raw source = .ok tree →
      ∀ part ∈ tree.descendants, part.kind ∉ Compiler.nativeKinds := by
    intro raw tree hrun
    obtain ⟨native, hnative, -⟩ := Pipeline.run_eq_ok hrun
    rw [Pipeline.run_semantic hnative] at hrun
    obtain ⟨preprocessed, -, hnormalize⟩ := bind_eq_ok_iff.mp hrun
    exact Compiler.kind_notMem_of_normalize hnormalize
  have hchecked : ∀ raw tree, (Compiler.pipeline unit).run .semantic raw source = .ok tree →
      response.tree = .ok raw →
        (standard unit).normalizeResponse .semantic response source = .ok tree :=
    fun raw tree hrun htree =>
      normalizeResponse_of_ok htree hrun (check_eq_ok (hclean raw tree hrun))
  refine ⟨fun first paths herror => ?_, fun raw tree hrun => ?_⟩
  · cases htree : response.tree with
    | error fault =>
      rw [normalizeResponse_of_no_tree _ htree] at herror
      cases herror
    | ok raw =>
      cases hrun : (Compiler.pipeline unit).run .semantic raw source with
      | error failure =>
        rw [normalizeResponse_of_failure htree hrun] at herror
        cases herror
      | ok tree =>
        rw [hchecked raw tree hrun htree] at herror
        cases herror
  · exact ⟨hclean raw tree hrun, hchecked raw tree hrun⟩

/-- The class is normalized, and none of its nodes keeps a native kind. -/
theorem normalizeResponse_clean_class :
    let response := Response.success Compiler.classRaw
    (standard Compiler.defaultUnit).normalizeResponse .semantic response Compiler.classSource =
      .ok Compiler.classCanonical ∧
    ∀ part ∈ Compiler.classCanonical.descendants, part.kind ∉ Compiler.nativeKinds := by
  intro response
  obtain ⟨-, hclean⟩ :=
    normalizeResponse_clean Compiler.defaultUnit response Compiler.classSource
  obtain ⟨hkinds, hresult⟩ := hclean _ _ Compiler.classRaw_semantic
  exact ⟨hresult rfl, hkinds⟩

end Profile

end CanonicalTree
