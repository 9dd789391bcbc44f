import CanonicalTree.Proofs.Outlines
import CanonicalTree.Response.Decode

/-!
# The envelope survives the wire

A response is printed with its tree left out if there is none, and with its messages always there;
it is decoded with its members in any order, each at most once. What is decoded from the text of a
response is the response itself, except that a tree that is `null` comes back as no tree
(`decode_text`).
-/

namespace CanonicalTree

/-- A status is read from its name. -/
theorem Status.ofName?_name (status : Status) : ofName? status.name = some status := by
  cases status <;> rfl

namespace Response

open Json (Outline Piece)

/-- A string that was printed is readable. -/
theorem readable_text (text : String) : readable (Piece.text (Piece.ofText text)) = .ok text := by
  rw [Piece.text_ofText]
  rfl

/-! ## Members -/

/-- The members of a record whose names are known and distinct are all found, in their order. -/
theorem knownMembers_outlineFields (known : List String) (fields : Record)
    (hknown : Fields.keys fields ⊆ known) (hdistinct : Fields.Distinct fields) :
    knownMembers known (Json.outlineFields fields) =
      .ok (fields.map fun field => (field.1, field.2.outline)) := by
  induction fields with
  | nil => rfl
  | cons field rest ih =>
    obtain ⟨name, value⟩ := field
    rw [Fields.keys_cons, List.cons_subset] at hknown
    obtain ⟨hfresh, hdistinct⟩ := List.nodup_cons.mp hdistinct
    have hname : known.contains name = true := List.contains_iff_mem.mpr hknown.1
    have hkeys : (rest.map fun field => (field.1, field.2.outline)).map Prod.fst =
        Fields.keys rest := by
      rw [List.map_map]
      rfl
    have hnew : ¬ (Fields.keys rest).contains name = true := by
      rw [List.contains_iff_mem]
      exact hfresh
    rw [Json.outlineFields, knownMembers, readable_text, ih hknown.2 hdistinct]
    show (if known.contains name then _ else _) = _
    rw [if_pos hname, hkeys, if_neg hnew]
    rfl

/-! ## The parts of a response -/

theorem statusOf_outline (status : Status) :
    statusOf (Json.str status.name).outline = .ok status := by
  rw [Json.outline, statusOf, textOf, readable_text]
  · simp only [bind, Except.bind, Status.ofName?_name]
    rfl
  · nofun

/-- What is read of a tree: `null` says that there is none. -/
theorem treeOf_outline {ast : Json}
    (hread : Json.ofOutline (Json.maxDepth - 1) ast.outline = .ok ast) :
    treeOf ast.outline = .ok ((some ast).filter fun tree => !tree.isNull) := by
  have htree : ∀ {outline : Outline}, outline ≠ .null →
      Json.ofOutline (Json.maxDepth - 1) outline = .ok ast → treeOf outline = .ok (some ast) := by
    intro outline hnull h
    cases outline with
    | null => exact absurd rfl hnull
    | _ =>
      rw [treeOf, h]
      · rfl
      · exact hnull
  cases ast with
  | null => rfl
  | _ => exact htree (by simp [Json.outline]) hread

theorem messageOf_outline (message : String) :
    messageOf (Json.obj [("message", .str message)]).outline = .ok message := by
  have hmembers := knownMembers_outlineFields ["message"] [("message", .str message)]
    (by simp [Fields.keys]) (by simp [Fields.Distinct])
  rw [Json.outline, messageOf, members, hmembers]
  exact readable_text message

/-- Messages that were printed are read as they were, in order. -/
theorem messagesOf_outline (errors : List String) :
    messagesOf (Json.arr (errors.map fun message => .obj [("message", .str message)])).outline =
      .ok errors := by
  rw [Json.outline, messagesOf]
  induction errors with
  | nil => rfl
  | cons message rest ih =>
    rw [List.map_cons, Json.outlineItems, List.mapM_cons, messageOf_outline, ih]
    rfl

/-! ## The whole envelope -/

/-- What arrives of a response: a tree that is `null` counts as absent. -/
def received (response : Response) : Response :=
  { response with ast := response.ast.filter fun tree => !tree.isNull }

/-- Only a tree that is null is not received as it was sent. -/
theorem received_eq_iff {response : Response} :
    response.received = response ↔ response.ast ≠ some .null := by
  obtain ⟨status, ast, errors⟩ := response
  cases ast with
  | none => simp [received]
  | some ast => cases ast <;> simp [received, Json.isNull]

theorem exists_mem_toJson {response : Response} {ast : Json} (h : ast ∈ response.ast) :
    ∃ record, response.toJson = .obj record ∧ ("ast", ast) ∈ record := by
  obtain ⟨status, _, errors⟩ := response
  cases h
  exact ⟨_, rfl, by simp⟩

/-- What is read from the outline of a printed response is the response as it is received. -/
theorem ofOutline_toJson {response : Response}
    (hread : ∀ ast ∈ response.ast, Json.ofOutline (Json.maxDepth - 1) ast.outline = .ok ast) :
    ofOutline response.toJson.outline = .ok response.received := by
  obtain ⟨status, ast, errors⟩ := response
  have hstatus := statusOf_outline status
  have herrors := messagesOf_outline errors
  cases ast with
  | none =>
    have hmembers := knownMembers_outlineFields ["status", "ast", "errors"]
      [("status", .str status.name),
        ("errors", .arr (errors.map fun message => .obj [("message", .str message)]))]
      (by simp [Fields.keys]) (by simp [Fields.Distinct])
    rw [toJson, Json.outline, ofOutline, members]
    simp only [List.nil_append, List.cons_append]
    rw [hmembers]
    simp [List.lookup_cons, hstatus, herrors, bind, Except.bind, pure, Except.pure, received]
  | some ast =>
    have htree := treeOf_outline (hread ast rfl)
    have hmembers := knownMembers_outlineFields ["status", "ast", "errors"]
      [("status", .str status.name), ("ast", ast),
        ("errors", .arr (errors.map fun message => .obj [("message", .str message)]))]
      (by simp [Fields.keys]) (by simp [Fields.Distinct])
    rw [toJson, Json.outline, ofOutline, members]
    simp only [List.nil_append, List.cons_append]
    rw [hmembers]
    simp [List.lookup_cons, hstatus, htree, herrors, bind, Except.bind, pure, Except.pure, received]

/-- Decoding the text of a response gives the response back exactly if its tree is not `null`, which
comes back as no tree; and then the response gives the same tree, or the same fault, as before. The
names in a record have to be distinct, and real numbers to be read from their own texts. -/
theorem decode_text (complaint : DecodeFault → String) (response : Response)
    (hdepth : response.toJson.depth ≤ Json.maxDepth) (hnames : response.toJson.DistinctNames)
    (hreals : ∀ x ∈ response.toJson.reals, (Number.real x).ReadsBack) :
    (decode complaint response.text.toUTF8.data = .ok response ↔ response.ast ≠ some .null) ∧
      (response.ast = some .null →
        decode complaint response.text.toUTF8.data = .ok { response with ast := none }) ∧
      (response.ast ≠ some .null →
        (decode complaint response.text.toUTF8.data).bind tree = response.tree) := by
  have hread : ∀ ast ∈ response.ast, Json.ofOutline (Json.maxDepth - 1) ast.outline = .ok ast := by
    intro ast hast
    obtain ⟨record, hrecord, hmem⟩ := exists_mem_toJson hast
    rw [hrecord] at hdepth hnames hreals
    rw [Json.depth] at hdepth
    rw [Json.reals, Json.realsFields_eq_flatMap] at hreals
    have hle : ast.depth ≤ Json.depthFields record := Schema.depth_le_depthFields hmem
    have hnames : ast.DistinctNames := (Schema.distinctNames_obj.mp hnames).2 _ hmem
    exact Json.ofOutline_outline hnames
      (fun x hx => hreals x (List.mem_flatMap.mpr ⟨_, hmem, hx⟩)) (by omega)
  have hdecode : decode complaint response.text.toUTF8.data = .ok response.received := by
    rw [decode, text, Json.parse?_text hreals]
    simp only [ofOutline_toJson hread]
  have hsame : response.ast ≠ some .null →
      decode complaint response.text.toUTF8.data = .ok response :=
    fun hnull => by rw [hdecode, received_eq_iff.mpr hnull]
  refine ⟨⟨fun h => ?_, hsame⟩, fun hnull => ?_, fun hnull => ?_⟩
  · rw [hdecode] at h
    exact received_eq_iff.mp (Except.ok.inj h)
  · rw [hdecode, received, hnull]
    rfl
  · rw [hsame hnull]
    rfl

/-- A response with a tree of every kind of value, and a message. -/
def sampleResponse : Response where
  status := .ok
  ast := some <| .obj
    [("kind", .str "SourceFile"), ("text", .str "a\t\"\x01\u00e9\\"),
      ("range", .arr [.num (.whole 0), .num (.negative ⟨11, by decide⟩)]),
      ("ratio", .num (.real ⟨false, ⟨0x3FE0000000000000, by decide⟩⟩)),
      ("parent", .null), ("children", .arr [.obj [("open", .bool true)], .arr [], .obj []])]
  errors := ["unexpected \"end\"\n"]

/-- The sample has a tree that is not `null`, so its text is decoded as the sample. -/
theorem decode_text_sample :
    sampleResponse.toJson.depth ≤ Json.maxDepth ∧ sampleResponse.toJson.DistinctNames ∧
      (∀ x ∈ sampleResponse.toJson.reals, (Number.real x).ReadsBack) ∧
      decode (fun _ => "expected value") sampleResponse.text.toUTF8.data = .ok sampleResponse := by
  have hdepth : sampleResponse.toJson.depth ≤ Json.maxDepth := by decide
  have hstr : ∀ text, Json.DistinctNames (.str text) := fun text => .scalar ⟨.str text, rfl⟩
  have hnum : ∀ n, Json.DistinctNames (.num n) := fun n => .scalar ⟨.num n, rfl⟩
  have hbool : ∀ flag, Json.DistinctNames (.bool flag) := fun flag => .scalar ⟨.bool flag, rfl⟩
  have hnull : Json.DistinctNames .null := .scalar ⟨.null, rfl⟩
  have hnames : sampleResponse.toJson.DistinctNames := by
    simp [sampleResponse, toJson, Schema.distinctNames_obj, Schema.distinctNames_arr,
      Fields.Distinct, hstr, hnum, hbool, hnull]
  have hreals : ∀ x ∈ sampleResponse.toJson.reals, (Number.real x).ReadsBack := by
    decide +kernel
  exact ⟨hdepth, hnames, hreals, (decode_text _ sampleResponse hdepth hnames hreals).1.mpr nofun⟩

end Response

end CanonicalTree
