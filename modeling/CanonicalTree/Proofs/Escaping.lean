import CanonicalTree.Proofs.Alignment
import CanonicalTree.Proofs.Compiler
import CanonicalTree.Proofs.Numerals

/-!
# Names that the compiler has escaped

The compiler puts one more underscore in front of a name that starts with two (`escape`), and
preprocessing takes three underscores at the start of a name for two. This undoes the escaping of
every name (`replaceStart_escape`), and it leaves alone every text that is no escaped name
(`replaceStart_of_ne_escape`).

Preprocessing leaves the nodes of a tree where they are, so that what becomes of a name is told of
the node under the same path (`preprocess_respells`).
-/

namespace CanonicalTree

/-! ## The start of a text -/

/-- A text that starts with the old part gets the new one in its place. -/
theorem replaceStart_append (old new rest : String) :
    replaceStart old new (old ++ rest) = new ++ rest := by
  have hprefix : List.isPrefixOf? old.toList (old ++ rest).toList = some rest.toList :=
    List.isPrefixOf?_eq_some_iff_append_eq.mpr String.toList_append.symm
  rw [replaceStart, hprefix]
  exact congrArg (new ++ ·) String.ofList_toList

/-- A text that does not start with the old part stays as it is. -/
theorem replaceStart_eq_self {old text : String} (new : String) (h : ∀ rest, text ≠ old ++ rest) :
    replaceStart old new text = text := by
  unfold replaceStart
  split
  · next rest hprefix =>
    have happend := List.isPrefixOf?_eq_some_iff_append_eq.mp hprefix
    refine absurd (String.toList_inj.mp ?_) (h (String.ofList rest))
    rw [String.toList_append, String.toList_ofList, happend]
  · rfl

namespace Compiler

/-- The name as the compiler keeps it. -/
def escape (name : String) : String :=
  if "__".toList <+: name.toList then "_" ++ name else name

theorem escape_append (rest : String) : escape ("__" ++ rest) = "___" ++ rest := by
  have hprefix : "__".toList <+: ("__" ++ rest).toList := ⟨rest.toList, String.toList_append.symm⟩
  rw [escape, if_pos hprefix, ← String.append_assoc]
  rfl

theorem escape_eq_self {name : String} (h : ∀ rest, name ≠ "__" ++ rest) : escape name = name := by
  refine if_neg fun hprefix => ?_
  obtain ⟨rest, hrest⟩ := hprefix
  refine h (String.ofList rest) (String.toList_inj.mp ?_)
  rw [String.toList_append]
  exact hrest.symm.trans (congrArg ("__".toList ++ ·) String.toList_ofList.symm)

/-- Replacing the escape undoes it. -/
theorem replaceStart_escape (name : String) : replaceStart "___" "__" (escape name) = name := by
  by_cases h : ∃ rest, name = "__" ++ rest
  · obtain ⟨rest, rfl⟩ := h
    rw [escape_append, replaceStart_append]
  · rw [not_exists] at h
    rw [escape_eq_self h]
    refine replaceStart_eq_self "__" fun rest heq => h ("_" ++ rest) ?_
    rw [heq, ← String.append_assoc]
    rfl

/-- Three underscores start an escaped name only. -/
theorem replaceStart_of_ne_escape {text : String} (h : ∀ name, text ≠ escape name) :
    replaceStart "___" "__" text = text :=
  replaceStart_eq_self "__" fun rest heq => h ("__" ++ rest) (heq.trans (escape_append rest).symm)

/-- The name is read back from its escaped form. -/
theorem unescaped_escape (name : String) : unescaped (.str (escape name)) = some name :=
  congrArg some (replaceStart_escape name)

/-- A name that is no escaped text is spelled as it stands. -/
theorem unescaped_of_ne_escape {name : Scalar} (h : ∀ text, name ≠ .str (escape text)) :
    unescaped name = name.text? := by
  cases name with
  | null => rfl
  | bool flag => cases flag <;> rfl
  | num number =>
    refine congrArg some (replaceStart_eq_self "__" fun rest heq => ?_)
    have hmem : '_' ∈ number.text.toList := by
      rw [heq, String.toList_append]
      exact List.mem_append_left _ (by decide)
    cases number.forall_isNumeral_text '_' hmem
  | str text =>
    refine congrArg some (replaceStart_of_ne_escape fun name heq => h name ?_)
    rw [heq]

/-! ## What becomes of names -/

/-- What preprocessing makes of the name of a node. -/
structure Respelled (node other : Node) : Prop where
  /-- An identifier without a token gets the name that the compiler has escaped. -/
  escaped : ∀ name, HoldsName node (.str (escape name)) →
    other.token = some name ∧ other.property? escapedName = none
  /-- What is no escaped name is spelled as it stands. -/
  plain : ∀ name, HoldsName node name → (∀ text, name ≠ .str (escape text)) →
    (∃ text, name.text? = some text ∧ other.token = some text) ∧
      other.property? escapedName = none
  /-- An identifier with a token keeps it. -/
  spelled : ∀ text, node.kind ∈ identifierKinds → node.token = some text →
    other.token = some text ∧ other.property? escapedName = none
  /-- All other nodes keep their token and their properties. -/
  unnamed : (∀ name, ¬ HoldsName node name) → (node.kind ∈ identifierKinds → node.token = none) →
    other.token = node.token ∧ other.properties = node.properties
  /-- Nothing else changes. -/
  kept : other.kind = node.kind ∧ other.position = node.position ∧
    ∀ key, key ≠ escapedName → other.property? key = node.property? key

variable {node : Node}

/-- Preprocessing does not touch properties other than the name. -/
theorem property?_named_of_ne (node : Node) {key : String} (h : key ≠ escapedName) :
    (named node).property? key = node.property? key := by
  show Fields.get? (unnamedProperties node) key = _
  unfold unnamedProperties
  split
  · exact Fields.get?_erase_of_ne node.properties h
  · rfl

/-- What preprocessing makes of a node is the node respelled. -/
theorem respelled_named (h : ¬ Nameless node) : Respelled node (named node) where
  escaped name hholds := by
    have htoken := (spelling_of_holdsName hholds).trans (unescaped_escape name)
    exact ⟨htoken, property?_named node hholds.1⟩
  plain name hholds hplain := by
    obtain ⟨text, htext⟩ := exists_unescaped h hholds
    have htoken := (spelling_of_holdsName hholds).trans htext
    rw [unescaped_of_ne_escape hplain] at htext
    exact ⟨⟨text, htext, htoken⟩, property?_named node hholds.1⟩
  spelled text hkind htoken := by
    have hspelling := spelling_of_not_holdsName (not_holdsName_of_token htoken)
    exact ⟨hspelling.trans htoken, property?_named node hkind⟩
  unnamed hnone htoken := by
    have hname : node.kind ∈ identifierKinds → node.property? escapedName = none :=
      fun hkind => property?_of_not_holdsName hnone hkind (htoken hkind)
    rw [named_eq_self hname]
    exact ⟨rfl, rfl⟩
  kept := ⟨rfl, rfl, fun _ hkey => property?_named_of_ne node hkey⟩

/-- The slots of a node have no part in what becomes of its name. -/
theorem Respelled.of_slots {other : Node} {slots : Fields Slot}
    (h : Respelled { node with slots } other) : Respelled node other :=
  ⟨h.escaped, h.plain, h.spelled, h.unnamed, h.kept⟩

/-- Preprocessing spells the names of a whole tree, wherever the identifiers stand. -/
theorem preprocess_respells {tree result : Node} (h : preprocess.apply tree = .ok result) :
    tree.Parallel Respelled result := by
  rw [Phase.apply_eq_transform] at h
  have hparallel := nodewise_preprocess.parallel (fun _ => rfl) h
  refine hparallel.imp fun entry other haligned => ⟨haligned.1, ?_⟩
  obtain ⟨hgood, slots, hother⟩ := haligned.2
  have hgood : ¬ Nameless { entry.2 with slots := slots } := hgood
  rw [hother]
  exact (respelled_named hgood).of_slots

/-- A name of underscores only, two levels down. -/
theorem preprocess_respells_underscores :
    let name : Node := { kind := "PrivateIdentifier", properties := [("escapedText", .str "____")] }
    let spelled : Node := { kind := "PrivateIdentifier", token := some "___" }
    let tree : Node :=
      { kind := "Block", slots := [("body", .sequence
        [{ kind := "Call", slots := [("name", .single name)] }])] }
    let result : Node :=
      { kind := "Block", slots := [("body", .sequence
        [{ kind := "Call", slots := [("name", .single spelled)] }])] }
    preprocess.apply tree = .ok result ∧ HoldsName name (.str (escape "___")) ∧
      Respelled name spelled := by
  intro name spelled tree result
  have happly : preprocess.apply tree = .ok result := by rfl
  have hparallel := preprocess_respells happly
  have hescape : escape "___" = "____" := escape_append "_"
  have hname : HoldsName name (.str (escape "___")) := by
    rw [hescape]
    decide
  rcases hparallel with _ | ⟨-, _ | ⟨-, _ | ⟨hleaf, -⟩⟩⟩
  exact ⟨happly, hname, hleaf.2⟩

/-- Names that the compiler has not escaped, a string and a number, do not stay where they are. -/
theorem plain_names_change :
    let block : Node :=
      { kind := "Block", slots := [("items", .sequence
        [{ kind := "Identifier", properties := [("escapedText", .str "__x")] },
          { kind := "Identifier", properties := [("escapedText", .num (.whole 5))] }])] }
    let result : Node :=
      { kind := "Block", slots := [("items", .sequence
        [{ kind := "Identifier", token := some "__x" },
          { kind := "Identifier", token := some "5" }])] }
    preprocess.apply block = .ok result ∧
    ¬ block.Parallel (fun node other =>
      (∀ name, HoldsName node (.str (escape name)) →
        other.token = some name ∧ other.property? escapedName = none) ∧
      (∀ text, node.kind ∈ identifierKinds → node.token = some text →
        other.token = some text ∧ other.property? escapedName = none) ∧
      ((∀ name, ¬ HoldsName node (.str (escape name))) →
        (node.kind ∈ identifierKinds → node.token = none) →
          other.token = node.token ∧ other.properties = node.properties)) result := by
  intro block result
  refine ⟨by rfl, fun hparallel => ?_⟩
  rcases hparallel with _ | ⟨-, _ | ⟨⟨-, -, -, hother⟩, -⟩⟩
  have hplain : ∀ name, ¬ HoldsName { kind := "Identifier", properties :=
      [("escapedText", .str "__x")] } (.str (escape name)) := by
    rintro name ⟨-, -, hname⟩
    have htext : escape name = "__x" := (Scalar.str.inj (Option.some.inj hname)).symm
    have hself : name = "__x" := by
      rw [← replaceStart_escape name, htext]
      rfl
    have hthree : escape "__x" = "___x" := escape_append "x"
    rw [hself, hthree] at htext
    exact absurd htext (by decide)
  cases (hother hplain fun _ => rfl).1

end Compiler

end CanonicalTree
