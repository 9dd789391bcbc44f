import CanonicalTree.Compiler
import CanonicalTree.Proofs.Edits
import CanonicalTree.Proofs.Passes

/-!
# The compiler's rules, node by node

Both phases for the compiler's trees look at one node at a time. Preprocessing moves the name of an
identifier into its token, and refuses an identifier that has no token and whose name is null
(`Nameless`). Normalizing gives a node its canonical kind, notes on a declaration what it was, and
gives two of its slots other names; it refuses a declaration in which one of these names is taken
(`Clashing`). What becomes of any other node is written down here once, without the rules:
`named` and `canonical`. The rules do this and nothing else (`nodewise_preprocess`,
`nodewise_normalize`).
-/

namespace CanonicalTree

namespace Compiler

/-! ## Names of identifiers -/

/-- An identifier without a token, whose name is the given scalar. -/
def HoldsName (node : Node) (name : Scalar) : Prop :=
  node.kind ∈ identifierKinds ∧ node.token = none ∧ node.property? escapedName = some name

instance (node : Node) (name : Scalar) : Decidable (HoldsName node name) :=
  inferInstanceAs (Decidable (_ ∧ _ ∧ _))

/-- An identifier without a token, whose name is null. -/
def Nameless (node : Node) : Prop :=
  HoldsName node .null

instance (node : Node) : Decidable (Nameless node) :=
  inferInstanceAs (Decidable (HoldsName node .null))

/-- The text of a name, without the underscore by which the compiler has escaped it. -/
def unescaped (name : Scalar) : Option String :=
  name.text?.map (replaceStart "___" "__")

/-- The token of a node after preprocessing. -/
def spelling (node : Node) : Option String :=
  if node.kind ∈ identifierKinds ∧ node.token = none then
    (node.property? escapedName).bind unescaped
  else node.token

/-- The properties of a node without the name of an identifier. -/
def unnamedProperties (node : Node) : Fields Scalar :=
  if node.kind ∈ identifierKinds then Fields.erase node.properties escapedName else node.properties

/-- What preprocessing makes of a node. -/
def named (node : Node) : Node :=
  { node with token := spelling node, properties := unnamedProperties node }

section Preprocess

variable {node : Node}

theorem not_holdsName_of_token {text : String} (h : node.token = some text) (name : Scalar) :
    ¬ HoldsName node name := by
  rintro ⟨-, hnone, -⟩
  rw [h] at hnone
  cases hnone

/-- An identifier without a token that holds no name has no such property. -/
theorem property?_of_not_holdsName (h : ∀ name, ¬ HoldsName node name)
    (hkind : node.kind ∈ identifierKinds) (htoken : node.token = none) :
    node.property? escapedName = none :=
  Option.eq_none_iff_forall_ne_some.mpr fun name hname => h name ⟨hkind, htoken, hname⟩

/-- A node that holds no name keeps its token. -/
theorem spelling_of_not_holdsName (h : ∀ name, ¬ HoldsName node name) :
    spelling node = node.token := by
  unfold spelling
  split
  · next hidentifier =>
    rw [property?_of_not_holdsName h hidentifier.1 hidentifier.2, hidentifier.2, Option.bind_none]
  · rfl

/-- The token of an identifier that holds a name is the name without its escape. -/
theorem spelling_of_holdsName {name : Scalar} (h : HoldsName node name) :
    spelling node = unescaped name := by
  obtain ⟨hkind, htoken, hname⟩ := h
  rw [spelling, if_pos ⟨hkind, htoken⟩, hname, Option.bind_some]

/-- An identifier that holds a name is matched by the first rule, which captures the name. -/
theorem firstMatch?_preprocess_of_holdsName {name : Scalar} (h : HoldsName node name) :
    Phase.firstMatch? node 0 preprocess.rules =
      some (0, preprocess.rules[0], [("name", .scalar name)]) := by
  obtain ⟨hkind, htoken, hname⟩ := h
  simp [preprocess, Phase.firstMatch?, Rule.captures?, Pattern.captures?_flat, KindClause.accepts,
    TokenClause.match?, Pattern.matchProperties?, PropertyClause.match?, Captures.keep,
    Captures.wildcard, hkind, htoken, hname]

/-- An identifier that has both a token and a name is matched by the second rule. -/
theorem firstMatch?_preprocess_of_token {text : String} {name : Scalar}
    (hkind : node.kind ∈ identifierKinds) (htoken : node.token = some text)
    (hname : node.property? escapedName = some name) :
    Phase.firstMatch? node 0 preprocess.rules = some (1, preprocess.rules[1], []) := by
  simp [preprocess, Phase.firstMatch?, Rule.captures?, Pattern.captures?_flat, KindClause.accepts,
    TokenClause.match?, Pattern.matchProperties?, PropertyClause.match?, hkind, htoken, hname]

/-- No rule of the preprocessing phase is for a node without a name. -/
theorem unmatched_preprocess
    (h : node.kind ∈ identifierKinds → node.property? escapedName = none) :
    ∀ rule ∈ preprocess.rules, rule.captures? node = none := by
  by_cases hkind : node.kind ∈ identifierKinds
  · simp [preprocess, Rule.captures?, Pattern.captures?_flat, Pattern.matchProperties?,
      PropertyClause.match?, h hkind]
  · simp [preprocess, Rule.captures?, Pattern.captures?_flat, KindClause.accepts, hkind]

/-- The first rule makes the unescaped name the token and drops the property. -/
theorem run_spellName (name : Scalar) (hkind : node.kind ≠ "") :
    (preprocess.rules[0]).action.run node [("name", .scalar name)] =
      match unescaped name with
      | some text =>
        .ok { node with token := some text, properties := Fields.erase node.properties escapedName }
      | none => .error (.mismatch "name" "null" "text") := by
  simp only [preprocess, List.getElem_cons_zero, Action.run, BuildContext.build,
    BuildContext.kindAfter_none hkind]
  cases name <;> rfl

/-- The second rule drops the property and keeps the token. -/
theorem run_dropName (captures : Captures) (hkind : node.kind ≠ "") :
    (preprocess.rules[1]).action.run node captures =
      .ok { node with properties := Fields.erase node.properties escapedName } := by
  simp only [preprocess, List.getElem_cons_zero, List.getElem_cons_succ, Action.run,
    BuildContext.build, BuildContext.kindAfter_none hkind]
  rfl

theorem named_eq_self (h : node.kind ∈ identifierKinds → node.property? escapedName = none) :
    named node = node := by
  have hspelling : spelling node = node.token := by
    refine spelling_of_not_holdsName fun name hholds => ?_
    have hname := hholds.2.2
    rw [h hholds.1] at hname
    cases hname
  have hproperties : unnamedProperties node = node.properties := by
    unfold unnamedProperties
    split
    · next hkind => exact Fields.erase_of_notMem (Fields.get?_eq_none_iff.mp (h hkind))
    · rfl
  rw [named, hspelling, hproperties]
  cases node
  rfl

theorem unescaped_eq_none_iff {name : Scalar} : unescaped name = none ↔ name = .null := by
  cases name <;> simp [unescaped, Scalar.text?]

/-- The name of an identifier that is not nameless has a text. -/
theorem exists_unescaped {name : Scalar} (h : ¬ Nameless node) (hholds : HoldsName node name) :
    ∃ text, unescaped name = some text := by
  refine Option.ne_none_iff_exists'.mp fun hnone => h ?_
  rwa [unescaped_eq_none_iff.mp hnone] at hholds

/-- Preprocessing gives an identifier its name and leaves other nodes alone. -/
theorem replace_preprocess (h : ¬ Nameless node) : preprocess.replace node = .ok (named node) := by
  by_cases hnamed : node.kind ∈ identifierKinds → node.property? escapedName = none
  · rw [named_eq_self hnamed]
    exact Phase.replace_of_unmatched (unmatched_preprocess hnamed)
  · obtain ⟨hkind, hname⟩ := Classical.not_imp.mp hnamed
    obtain ⟨name, hname⟩ := Option.ne_none_iff_exists'.mp hname
    have hne : node.kind ≠ "" := fun hempty => absurd (hempty ▸ hkind) (by decide)
    have hproperties : unnamedProperties node = Fields.erase node.properties escapedName :=
      if_pos hkind
    cases htoken : node.token with
    | none =>
      have hholds : HoldsName node name := ⟨hkind, htoken, hname⟩
      obtain ⟨text, htext⟩ := exists_unescaped h hholds
      have hspelling := (spelling_of_holdsName hholds).trans htext
      have hrun := run_spellName name hne
      rw [htext] at hrun
      rw [Phase.replace_of_run_ok (firstMatch?_preprocess_of_holdsName hholds) hrun, named,
        hspelling, hproperties]
    | some text =>
      have hspelling := spelling_of_not_holdsName (not_holdsName_of_token htoken)
      rw [Phase.replace_of_run_ok (firstMatch?_preprocess_of_token hkind htoken hname)
        (run_dropName [] hne), named, hspelling, hproperties]

/-- Preprocessing refuses the identifiers whose name is null and spells the names of all others. -/
theorem nodewise_preprocess : preprocess.Nodewise Nameless named where
  refuses node h := by
    have hne : node.kind ≠ "" := fun hempty => absurd (hempty ▸ h.1) (by decide)
    exact ⟨_, Phase.replace_of_run_error (firstMatch?_preprocess_of_holdsName h)
      (run_spellName .null hne)⟩
  replaces _ h := replace_preprocess h
  children _ := rfl
  forms _ _ _ := Iff.rfl

end Preprocess

/-! ## Canonical kinds -/

/-- The kind of a node after normalizing. -/
def canonicalKind (kind : String) : String :=
  if kind ∈ Fields.keys declarations then "uast:Declaration"
  else if kind ∈ identifierKinds then "uast:Identifier"
  else if kind = "StringLiteral" then "uast:String"
  else if kind = "NumericLiteral" then "uast:Number"
  else kind

/-- The name of a slot after normalizing, in a node of this kind. -/
def canonicalSlot (kind name : String) : String :=
  if kind ∈ Fields.keys declarations then
    if name = "parameters" then "params" else if name = "members" then "body" else name
  else name

/-- The properties of a node after normalizing: a declaration says what it declares and what its
kind was, and a private identifier that it is private. -/
def noted (kind : String) (properties : Fields Scalar) : Fields Scalar :=
  match Fields.get? declarations kind with
  | some declared =>
    Fields.insert (Fields.insert properties "declaration_kind" (.str declared)) "native_kind"
      (.str kind)
  | none =>
    if kind = "PrivateIdentifier" then Fields.insert properties "private" (.bool true)
    else properties

/-- What normalizing makes of a node. -/
def canonical (node : Node) : Node where
  kind := canonicalKind node.kind
  token := node.token
  position := node.position
  properties := noted node.kind node.properties
  slots := node.slots.map fun entry => (canonicalSlot node.kind entry.1, entry.2)

/-- A declaration in which a slot cannot get its canonical name, because another slot has it. -/
def Clashing (node : Node) : Prop :=
  node.kind ∈ Fields.keys declarations ∧
    (Fields.Contend node.slots "parameters" "params" ∨ Fields.Contend node.slots "members" "body")

instance (node : Node) : Decidable (Clashing node) :=
  inferInstanceAs (Decidable (_ ∧ (_ ∨ _)))

section Normalize

variable {node : Node}

/-- Which rule of the normalizing phase matches a node is told by its kind. -/
theorem firstMatch?_normalize (node : Node) :
    ∃ index, Phase.firstMatch? node 0 normalize.rules =
      match Fields.get? declarations node.kind with
      | some declared => some (index, declarationRule node.kind declared, [])
      | none =>
        match Fields.get? simpleKinds node.kind with
        | some kind => some (index, simpleRule node.kind kind, [])
        | none =>
          if node.kind = "PrivateIdentifier" then some (index, privateRule, []) else none := by
  unfold normalize
  rw [List.append_assoc]
  obtain ⟨i, hi⟩ := Phase.firstMatch?_table declarationRule (fun _ _ => rfl) declarations
    (simpleKinds.map (fun entry => simpleRule entry.1 entry.2) ++ [privateRule]) node 0
  rw [hi]
  cases Fields.get? declarations node.kind with
  | some declared => exact ⟨i, rfl⟩
  | none =>
    obtain ⟨j, hj⟩ := Phase.firstMatch?_table simpleRule (fun _ _ => rfl) simpleKinds
      [privateRule] node i
    simp only [hj]
    cases Fields.get? simpleKinds node.kind with
    | some kind => exact ⟨j, rfl⟩
    | none =>
      refine ⟨j, ?_⟩
      simp only [Phase.firstMatch?, Rule.captures?, privateRule, Pattern.captures?_only]
      by_cases hkind : node.kind = "PrivateIdentifier"
      · simp only [hkind, if_pos]
      · simp only [if_neg hkind, if_neg (Ne.symm hkind)]

/-- Renaming the parameters does not change whether the members contend for a name. -/
theorem contend_rename {slots : Fields Slot} :
    Fields.Contend (Fields.rename slots "parameters" "params") "members" "body" ↔
      Fields.Contend slots "members" "body" :=
  and_congr (Fields.mem_keys_rename_of_ne (by decide) (by decide))
    (Fields.mem_keys_rename_of_ne (by decide) (by decide))

/-- The two renamings of a declaration give every slot its canonical name. -/
theorem rename_rename {kind : String} (h : kind ∈ Fields.keys declarations) (slots : Fields Slot) :
    Fields.rename (Fields.rename slots "parameters" "params") "members" "body" =
      slots.map fun entry => (canonicalSlot kind entry.1, entry.2) := by
  unfold Fields.rename canonicalSlot
  rw [List.map_map]
  refine List.map_congr_left fun entry _ => ?_
  simp only [Function.comp_apply, if_pos h]
  by_cases hparameters : entry.1 = "parameters"
  · simp [hparameters]
  · by_cases hmembers : entry.1 = "members" <;> simp [hparameters, hmembers]

/-- A declaration becomes what its slots allow, the renaming being the only step that can fail. -/
theorem run_declarationRule (native declared : String) (node : Node) (captures : Captures) :
    (declarationRule native declared).action.run node captures =
      ((BuildContext.ofMatch node captures).editSlots node.slots
        [.rename "parameters" "params", .rename "members" "body"]).map fun slots =>
          { node with
            kind := "uast:Declaration"
            properties :=
              Fields.insert (Fields.insert node.properties "declaration_kind" (.str declared))
                "native_kind" (.str node.kind)
            slots } := by
  have hkind : "uast:Declaration" ≠ "" := by decide
  simp only [declarationRule, Action.run, BuildContext.build,
    BuildContext.kindAfter_literal _ hkind]
  rfl

/-- The rule for a simple kind changes nothing but the kind. -/
theorem run_simpleRule {kind : String} (native : String) (captures : Captures) (h : kind ≠ "") :
    (simpleRule native kind).action.run node captures = .ok { node with kind } := by
  simp only [simpleRule, Action.run, BuildContext.build, BuildContext.kindAfter_literal _ h]
  rfl

theorem run_privateRule (captures : Captures) :
    privateRule.action.run node captures =
      .ok
        { node with
          kind := "uast:Identifier"
          properties := Fields.insert node.properties "private" (.bool true) } := rfl

theorem canonicalSlot_of_notMem {kind : String} (h : kind ∉ Fields.keys declarations)
    (slots : Fields Slot) :
    (slots.map fun entry => (canonicalSlot kind entry.1, entry.2)) = slots := by
  refine (List.map_congr_left fun entry _ => ?_).trans slots.map_id
  rw [canonicalSlot, if_neg h, id]

/-- The table of simple kinds agrees with the canonical kinds. -/
theorem canonicalKind_of_mem_simpleKinds :
    ∀ entry ∈ simpleKinds, canonicalKind entry.1 = entry.2 ∧ entry.2 ≠ "" ∧
      entry.1 ≠ "PrivateIdentifier" := by
  decide

/-- A kind that no rule is for is canonical already. -/
theorem canonicalKind_of_notMem {kind : String} (hdeclaration : kind ∉ Fields.keys declarations)
    (hsimple : kind ∉ Fields.keys simpleKinds) (hprivate : kind ≠ "PrivateIdentifier") :
    canonicalKind kind = kind := by
  simp only [simpleKinds, Fields.keys, List.map_cons, List.map_nil, List.mem_cons, List.not_mem_nil,
    or_false, not_or] at hsimple
  obtain ⟨hidentifier, hstring, hnumber⟩ := hsimple
  have hidentifiers : kind ∉ identifierKinds := by simp [identifierKinds, hidentifier, hprivate]
  rw [canonicalKind, if_neg hdeclaration, if_neg hidentifiers, if_neg hstring, if_neg hnumber]

/-- A declaration whose slots contend for a name is refused. -/
theorem replace_normalize_of_clashing (h : Clashing node) :
    ∃ failure, normalize.replace node = .error failure := by
  obtain ⟨hkind, hcontend⟩ := h
  obtain ⟨declared, hdeclared⟩ :=
    Option.isSome_iff_exists.mp ((Fields.get?_isSome_iff declarations node.kind).mpr hkind)
  obtain ⟨index, hmatch⟩ := firstMatch?_normalize node
  rw [hdeclared] at hmatch
  have hrun := run_declarationRule node.kind declared node []
  by_cases hfirst : Fields.Contend node.slots "parameters" "params"
  · rw [BuildContext.editSlots_rename_of_contend _ (by decide) hfirst] at hrun
    exact ⟨_, Phase.replace_of_run_error hmatch hrun⟩
  · have hsecond := contend_rename.mpr (hcontend.resolve_left hfirst)
    rw [BuildContext.editSlots_rename_of_not_contend _ hfirst,
      BuildContext.editSlots_rename_of_contend _ (by decide) hsecond] at hrun
    exact ⟨_, Phase.replace_of_run_error hmatch hrun⟩

/-- Otherwise the rule for declarations makes it canonical. -/
theorem run_declarationRule_of_not_clashing {declared : String} (h : ¬ Clashing node)
    (hdeclared : Fields.get? declarations node.kind = some declared) :
    (declarationRule node.kind declared).action.run node [] = .ok (canonical node) := by
  have hkind : node.kind ∈ Fields.keys declarations := by
    rw [← Fields.get?_isSome_iff, hdeclared]
    rfl
  obtain ⟨hfirst, hsecond⟩ := not_or.mp fun hcontend => h ⟨hkind, hcontend⟩
  rw [run_declarationRule, BuildContext.editSlots_rename_of_not_contend _ hfirst,
    BuildContext.editSlots_rename_of_not_contend _ (contend_rename.not.mpr hsecond),
    BuildContext.editSlots, rename_rename hkind]
  simp only [canonical, canonicalKind, if_pos hkind, noted, hdeclared]
  rfl

/-- What normalizing makes of a node that is no declaration. -/
theorem canonical_of_notMem (h : Fields.get? declarations node.kind = none) :
    canonical node =
      { node with
        kind := canonicalKind node.kind
        properties :=
          if node.kind = "PrivateIdentifier" then
            Fields.insert node.properties "private" (.bool true)
          else node.properties } := by
  simp only [canonical, noted, h, canonicalSlot_of_notMem (Fields.get?_eq_none_iff.mp h)]

/-- Every node whose slots do not contend for a name becomes canonical. -/
theorem replace_normalize (h : ¬ Clashing node) :
    normalize.replace node = .ok (canonical node) := by
  obtain ⟨index, hmatch⟩ := firstMatch?_normalize node
  cases hdeclared : Fields.get? declarations node.kind with
  | some declared =>
    rw [hdeclared] at hmatch
    exact Phase.replace_of_run_ok hmatch (run_declarationRule_of_not_clashing h hdeclared)
  | none =>
    simp only [hdeclared] at hmatch
    rw [canonical_of_notMem hdeclared]
    cases hsimple : Fields.get? simpleKinds node.kind with
    | some kind =>
      simp only [hsimple] at hmatch
      obtain ⟨hcanonical, hne, hprivate⟩ :=
        canonicalKind_of_mem_simpleKinds _ (Fields.mem_of_get? hsimple)
      rw [hcanonical, if_neg hprivate]
      exact Phase.replace_of_run_ok hmatch (run_simpleRule _ _ hne)
    | none =>
      simp only [hsimple] at hmatch
      by_cases hprivate : node.kind = "PrivateIdentifier"
      · rw [if_pos hprivate] at hmatch
        have hcanonical : canonicalKind node.kind = "uast:Identifier" := by
          rw [hprivate]
          rfl
        rw [hcanonical, if_pos hprivate]
        exact Phase.replace_of_run_ok hmatch (run_privateRule _)
      · -- no rule is for this kind, and the kind is its own canonical kind
        rw [if_neg hprivate] at hmatch
        have hcanonical := canonicalKind_of_notMem (Fields.get?_eq_none_iff.mp hdeclared)
          (Fields.get?_eq_none_iff.mp hsimple) hprivate
        rw [hcanonical, if_neg hprivate, Phase.replace, hmatch]
        cases node
        rfl

/-- Normalizing refuses the declarations in which slots contend for a name and makes all other
nodes canonical. -/
theorem nodewise_normalize : normalize.Nodewise Clashing canonical where
  refuses _ h := replace_normalize_of_clashing h
  replaces _ h := replace_normalize h
  children node := List.flatMap_map ..
  forms node slots h := by
    have hkeys : Fields.keys slots = Fields.keys node.slots := by
      rw [← Slots.keys_forms, h, Slots.keys_forms]
    simp only [Clashing, Fields.Contend, hkeys]

end Normalize

/-! ## Nothing is left to do -/

theorem property?_named (node : Node) (h : node.kind ∈ identifierKinds) :
    (named node).property? escapedName = none := by
  have hproperties : (named node).properties = Fields.erase node.properties escapedName := if_pos h
  rw [Node.property?, hproperties, Fields.get?_erase_self]

/-- No rule of the preprocessing phase is for a preprocessed node. -/
theorem unmatched_named (node : Node) :
    ∀ rule ∈ preprocess.rules, rule.captures? (named node) = none :=
  unmatched_preprocess (property?_named node)

/-- No canonical kind is a native one. -/
theorem canonicalKind_notMem_nativeKinds (kind : String) : canonicalKind kind ∉ nativeKinds := by
  have hnative : ∀ kind ∈ nativeKinds, canonicalKind kind ∉ nativeKinds := by decide
  by_cases hkind : kind ∈ nativeKinds
  · exact hnative kind hkind
  · unfold canonicalKind
    split_ifs
    · decide
    · decide
    · decide
    · decide
    · exact hkind

/-- Every rule of the normalizing phase is for one of the native kinds. -/
theorem exists_kind_of_mem_normalize :
    ∀ rule ∈ normalize.rules, ∃ kind ∈ nativeKinds, rule.pattern = { kind := .only kind } := by
  have hdeclarations : ∀ entry ∈ declarations, entry.1 ∈ nativeKinds := by decide
  have hsimple : ∀ entry ∈ simpleKinds, entry.1 ∈ nativeKinds := by decide
  intro rule hrule
  rcases List.mem_append.mp hrule with hrule | hrule
  · rcases List.mem_append.mp hrule with hrule | hrule
    · obtain ⟨entry, hentry, rfl⟩ := List.mem_map.mp hrule
      exact ⟨entry.1, hdeclarations entry hentry, rfl⟩
    · obtain ⟨entry, hentry, rfl⟩ := List.mem_map.mp hrule
      exact ⟨entry.1, hsimple entry hentry, rfl⟩
  · rw [List.mem_singleton.mp hrule]
    exact ⟨"PrivateIdentifier", by decide, rfl⟩

/-- No rule of the normalizing phase is for a normalized node. -/
theorem unmatched_canonical (node : Node) :
    ∀ rule ∈ normalize.rules, rule.captures? (canonical node) = none := by
  intro rule hrule
  obtain ⟨kind, hkind, hpattern⟩ := exists_kind_of_mem_normalize rule hrule
  rw [Rule.captures?, hpattern, Pattern.captures?_only, if_neg]
  rintro rfl
  exact canonicalKind_notMem_nativeKinds node.kind hkind

end Compiler

end CanonicalTree
