import CanonicalTree.Proofs.Depiction
import CanonicalTree.Proofs.Edits
import CanonicalTree.Proofs.Lexemes

/-!
# Reading what was printed

The outline of a value is the structure of its text. The text of a value is scanned into the
lexemes of its outline (`spells_text`), these lexemes spell the outline (`ofTokens?_tokens`), and
the value is read from it (`ofOutline_outline`), if the outline is not too deep, no record has a
name twice and the real numbers are read from their own texts. Together this is `parse_text`.
-/

namespace CanonicalTree

namespace Fields

variable {α : Type}

/-- Entries with distinct names are collected as they are. -/
theorem Distinct.collect_eq {entries : Fields α} (h : Distinct entries) :
    collect entries = entries := by
  have hfold : ∀ (left right : Fields α), Distinct (left ++ right) →
      right.foldl (fun fields entry => insert fields entry.1 entry.2) left = left ++ right := by
    intro left right
    induction right generalizing left with
    | nil => simp
    | cons entry right ih =>
      intro h
      have hnew : entry.1 ∉ keys left := by
        rw [Distinct, keys, List.map_append, List.nodup_append] at h
        exact fun hmem => h.2.2 _ hmem _ List.mem_cons_self rfl
      rw [List.foldl_cons, insert_of_notMem _ hnew, ih _ (by simpa using h)]
      simp
  exact hfold [] entries h

end Fields

namespace Json

namespace Outline

/-! ## The lexemes of an outline -/

mutual

/-- The lexemes of an outline. -/
def tokens : Outline → List Token
  | .null => [.null]
  | .bool flag => [.bool flag]
  | .number literal => [.number literal]
  | .string pieces => [.string pieces]
  | .array items => .openArray :: (List.intercalate [.comma] (tokensItems items) ++ [.closeArray])
  | .object members =>
    .openObject :: (List.intercalate [.comma] (tokensMembers members) ++ [.closeObject])

/-- The lexemes of the items of a sequence. -/
def tokensItems : List Outline → List (List Token)
  | [] => []
  | item :: rest => tokens item :: tokensItems rest

/-- The lexemes of the members of a record. -/
def tokensMembers : List (List Piece × Outline) → List (List Token)
  | [] => []
  | (name, value) :: rest => (.string name :: .colon :: tokens value) :: tokensMembers rest

end

/-- Parts with separators between them are the first part and the others, each behind a separator.
-/
theorem intercalate_cons (separator : Token) (first : List Token) (others : List (List Token)) :
    List.intercalate [separator] (first :: others) =
      first ++ others.flatMap fun tokens => separator :: tokens := by
  induction others generalizing first with
  | nil => simp
  | cons next others ih => rw [List.intercalate_cons_cons, ih, List.flatMap_cons]; simp

/-- A first item is taken like any other, since it does not begin with a closing bracket. -/
theorem foldlM_firstItem (item : Outline) (stack : List Frame) (rest : List Token) :
    (item.tokens ++ rest).foldlM step? (.firstItem stack) =
      (item.tokens ++ rest).foldlM step? (.value (.array [] :: stack)) := by
  cases item <;> rfl

mutual

/-- The lexemes of an outline complete it, whatever is open around it. -/
theorem foldlM_tokens (outline : Outline) (stack : List Frame) (rest : List Token) :
    (outline.tokens ++ rest).foldlM step? (.value stack) =
      rest.foldlM step? (.complete outline stack) := by
  match outline with
  | .null => rfl
  | .bool _ => rfl
  | .number _ => rfl
  | .string _ => rfl
  | .array [] => rfl
  | .array (item :: items) =>
    have hitem := foldlM_tokens item (.array [] :: stack)
    have hitems := foldlM_tokensItems item items [] stack rest
    rw [tokens, tokensItems, intercalate_cons, List.cons_append, List.append_assoc,
      List.append_assoc, List.singleton_append]
    show (item.tokens ++ _).foldlM step? (.firstItem stack) = _
    rw [foldlM_firstItem, hitem, hitems]
    rfl
  | .object [] => rfl
  | .object ((name, value) :: members) =>
    have hvalue := foldlM_tokens value (.object [] name :: stack)
    have hmembers := foldlM_tokensMembers name value members [] stack rest
    rw [tokens, tokensMembers, intercalate_cons, List.cons_append, List.append_assoc,
      List.append_assoc, List.singleton_append]
    show (value.tokens ++ _).foldlM step? (.value (.object [] name :: stack)) = _
    rw [hvalue, hmembers]
    rfl

/-- Within a sequence the lexemes of the other items complete it. -/
theorem foldlM_tokensItems (item : Outline) (items before : List Outline) (stack : List Frame)
    (rest : List Token) :
    (((tokensItems items).flatMap fun tokens => .comma :: tokens) ++ .closeArray :: rest).foldlM
        step? (.complete item (.array before :: stack)) =
      rest.foldlM step? (.complete (.array (before.reverse ++ item :: items)) stack) := by
  match items with
  | [] => simp [tokensItems, step?]
  | next :: items =>
    have hnext := foldlM_tokens next (.array (item :: before) :: stack)
    have hitems := foldlM_tokensItems next items (item :: before) stack rest
    rw [tokensItems, List.flatMap_cons, List.append_assoc]
    show (next.tokens ++ _).foldlM step? (.value (.array (item :: before) :: stack)) = _
    rw [hnext, hitems, List.reverse_cons, List.append_assoc, List.singleton_append]

theorem foldlM_tokensMembers (name : List Piece) (value : Outline)
    (members before : List (List Piece × Outline)) (stack : List Frame) (rest : List Token) :
    (((tokensMembers members).flatMap fun tokens => .comma :: tokens) ++
        .closeObject :: rest).foldlM step? (.complete value (.object before name :: stack)) =
      rest.foldlM step?
        (.complete (.object (before.reverse ++ (name, value) :: members)) stack) := by
  match members with
  | [] => simp [tokensMembers, step?]
  | (nextName, next) :: members =>
    have hnext := foldlM_tokens next (.object ((name, value) :: before) nextName :: stack)
    have hmembers := foldlM_tokensMembers nextName next members ((name, value) :: before) stack rest
    rw [tokensMembers, List.flatMap_cons, List.append_assoc]
    show (next.tokens ++ _).foldlM step?
      (.value (.object ((name, value) :: before) nextName :: stack)) = _
    rw [hnext, hmembers, List.reverse_cons, List.append_assoc, List.singleton_append]

end

/-- An outline is read from its lexemes. -/
theorem ofTokens?_tokens (outline : Outline) : ofTokens? outline.tokens = some outline := by
  have h := foldlM_tokens outline [] []
  rw [List.append_nil] at h
  rw [ofTokens?, h]
  rfl

end Outline

/-! ## The outline of a value -/

end Json

/-- The literal that a number is written as. -/
def Number.literal (number : Number) : Decimal.Literal :=
  (Decimal.Literal.parse? number.text.toList).getD ⟨false, [], none, none⟩

namespace Json

mutual

/-- The outline of the text of a value. -/
def outline : Json → Outline
  | .null => .null
  | .bool flag => .bool flag
  | .num number => .number number.literal
  | .str text => .string (Piece.ofText text)
  | .arr items => .array (outlineItems items)
  | .obj fields => .object (outlineFields fields)

/-- The outlines of the items of a sequence. -/
def outlineItems : List Json → List Outline
  | [] => []
  | item :: rest => outline item :: outlineItems rest

/-- The outlines of the fields of a record. -/
def outlineFields : List (String × Json) → List (List Piece × Outline)
  | [] => []
  | (name, value) :: rest => (Piece.ofText name, outline value) :: outlineFields rest

end

mutual

/-- The real numbers in a value. -/
def reals : Json → List Binary64
  | .num (.real x) => [x]
  | .arr items => realsItems items
  | .obj fields => realsFields fields
  | _ => []

/-- The real numbers in the items of a sequence. -/
def realsItems : List Json → List Binary64
  | [] => []
  | item :: rest => reals item ++ realsItems rest

/-- The real numbers in the fields of a record. -/
def realsFields : List (String × Json) → List Binary64
  | [] => []
  | (_, value) :: rest => reals value ++ realsFields rest

end

theorem realsItems_eq_flatMap (items : List Json) : realsItems items = items.flatMap reals := by
  induction items with
  | nil => rfl
  | cons item rest ih => rw [realsItems, ih, List.flatMap_cons]

theorem realsFields_eq_flatMap (fields : List (String × Json)) :
    realsFields fields = fields.flatMap fun field => reals field.2 := by
  induction fields with
  | nil => rfl
  | cons field rest ih => rw [realsFields, ih, List.flatMap_cons]

/-- A number reads back if it does provided that it is real. -/
theorem readsBack_of_reals {number : Number}
    (h : ∀ x ∈ reals (.num number), (Number.real x).ReadsBack) : number.ReadsBack := by
  cases number with
  | whole n => exact Number.readsBack_whole n
  | negative n => exact Number.readsBack_negative n
  | real x => exact h x List.mem_cons_self

/-- A number that reads back is printed as its literal. -/
theorem parse?_text_of_readsBack {number : Number} (h : number.ReadsBack) :
    Decimal.Literal.parse? number.text.toList = some number.literal ∧
      Number.ofLiteral? number.literal = some number := by
  obtain ⟨literal, hparse, hvalue⟩ := h.exists_literal
  have hliteral : number.literal = literal := by rw [Number.literal, hparse, Option.getD_some]
  rw [hliteral]
  exact ⟨hparse, hvalue⟩

/-! ## Scanning the text of a value -/

namespace Token

/-- The text is scanned into these lexemes, unless a numeral follows it. -/
def Spells (text : String) (tokens : List Token) : Prop :=
  ∀ (found : List Token) (rest : List UInt8), Delimited rest →
    scanFrom ⟨found, .between⟩ (utf8 text.toList ++ rest) =
      scanFrom ⟨tokens.reverse ++ found, .between⟩ rest

/-- A byte that is no part of a number delimits. -/
theorem delimited_cons {b : UInt8} (h : isNumeral b = false) (rest : List UInt8) :
    Delimited (b :: rest) := by
  intro other hother
  cases hother
  exact h

/-- The text is scanned into these lexemes whatever comes after it, and no numeral before it goes on
in it. -/
structure Separates (text : String) (tokens : List Token) : Prop where
  delimited : ∀ rest, Delimited (utf8 text.toList ++ rest)
  scanFrom_eq : ∀ found rest,
    scanFrom ⟨found, .between⟩ (utf8 text.toList ++ rest) =
      scanFrom ⟨tokens.reverse ++ found, .between⟩ rest

/-- A byte that is a lexeme of its own separates. -/
theorem Separates.of_byte {text : String} {b : UInt8} {token : Token}
    (htext : utf8 text.toList = [b]) (hnumeral : isNumeral b = false)
    (hstep : ∀ found, step? ⟨found, .between⟩ b = some ⟨token :: found, .between⟩) :
    Separates text [token] where
  delimited rest := by
    rw [htext]
    exact delimited_cons hnumeral rest
  scanFrom_eq found rest := by
    rw [htext, List.singleton_append, scanFrom_cons (hstep found)]
    rfl

/-- What separates and is followed by something that does separates. -/
theorem Separates.append {left right : String} {leftTokens rightTokens : List Token}
    (hleft : Separates left leftTokens) (hright : Separates right rightTokens) :
    Separates (left ++ right) (leftTokens ++ rightTokens) where
  delimited rest := by
    rw [String.toList_append, utf8_append, List.append_assoc]
    exact hleft.delimited _
  scanFrom_eq found rest := by
    rw [String.toList_append, utf8_append, List.append_assoc, hleft.scanFrom_eq,
      hright.scanFrom_eq, List.reverse_append, List.append_assoc]

theorem separates_comma : Separates "," [.comma] := .of_byte rfl rfl fun _ => rfl

theorem separates_colon : Separates ":" [.colon] := .of_byte rfl rfl fun _ => rfl

theorem separates_openArray : Separates "[" [.openArray] := .of_byte rfl rfl fun _ => rfl

theorem separates_closeArray : Separates "]" [.closeArray] := .of_byte rfl rfl fun _ => rfl

theorem separates_openObject : Separates "\x7b" [.openObject] := .of_byte rfl rfl fun _ => rfl

theorem separates_closeObject : Separates "\x7d" [.closeObject] := .of_byte rfl rfl fun _ => rfl

/-- One text after another spells the lexemes of both, if something separates them. -/
theorem Spells.append {left separator right : String}
    {leftTokens separatorTokens rightTokens : List Token} (hleft : Spells left leftTokens)
    (hseparator : Separates separator separatorTokens) (hright : Spells right rightTokens) :
    Spells (left ++ (separator ++ right)) (leftTokens ++ (separatorTokens ++ rightTokens)) := by
  intro found rest hrest
  rw [String.toList_append, String.toList_append, utf8_append, utf8_append, List.append_assoc,
    List.append_assoc, hleft found _ (hseparator.delimited _), hseparator.scanFrom_eq,
    hright _ rest hrest]
  simp only [List.reverse_append, List.append_assoc]

/-- Texts divided by commas spell their lexemes divided by commas. -/
theorem Spells.intercalate {separator : String} {texts : List String} {tokens : List (List Token)}
    (hseparator : Separates separator [.comma]) (h : List.Forall₂ Spells texts tokens) :
    Spells (String.intercalate separator texts) (List.intercalate [.comma] tokens) := by
  induction h with
  | nil => exact fun found rest _ => rfl
  | @cons first firstTokens others othersTokens hfirst hothers ih =>
    cases hothers with
    | nil =>
      rw [String.intercalate_singleton, List.intercalate_singleton]
      exact hfirst
    | @cons next nextTokens others othersTokens hnext hothers =>
      rw [String.intercalate_cons_cons, List.intercalate_cons_cons, String.append_assoc,
        List.append_assoc]
      exact hfirst.append hseparator ih

/-- A text between brackets spells its lexemes between those of the brackets. -/
theorem Spells.enclose {inner opening closing : String} {tokens : List Token}
    {openToken closeToken : Token} (h : Spells inner tokens)
    (hopening : Separates opening [openToken]) (hclosing : Separates closing [closeToken]) :
    Spells (opening ++ inner ++ closing) (openToken :: (tokens ++ [closeToken])) := by
  intro found rest _
  rw [String.toList_append, String.toList_append, utf8_append, utf8_append, List.append_assoc,
    List.append_assoc, hopening.scanFrom_eq, h _ _ (hclosing.delimited rest), hclosing.scanFrom_eq]
  simp

end Token

open Token (Spells)

theorem spells_quote (text : String) : Spells (quote text) [.string (Piece.ofText text)] :=
  fun found rest _ => Token.scanFrom_quote found rest text

/-- A number that reads back spells one lexeme. -/
theorem spells_number {number : Number} (h : number.ReadsBack) :
    Spells number.text [.number number.literal] :=
  fun found rest hrest => Token.scanFrom_literal found rest (parse?_text_of_readsBack h).1 hrest

/-- A name and a value spell a member of a record, whatever kind of colon stands between them. -/
theorem spells_field {colon value : String} {tokens : List Token} (name : String)
    (hcolon : Token.Separates colon [.colon]) (h : Spells value tokens) :
    Spells (quote name ++ colon ++ value) (.string (Piece.ofText name) :: .colon :: tokens) := by
  rw [String.append_assoc]
  exact (spells_quote name).append hcolon h

mutual

/-- The text of a value is scanned into the lexemes of its outline. -/
theorem spells_text (value : Json) (h : ∀ x ∈ value.reals, (Number.real x).ReadsBack) :
    Spells value.text value.outline.tokens := by
  cases value with
  | null => exact fun found rest _ => rfl
  | bool flag => cases flag <;> exact fun found rest _ => rfl
  | num number => exact spells_number (readsBack_of_reals h)
  | str text => exact spells_quote text
  | arr items =>
    rw [text, outline, Outline.tokens]
    exact (Spells.intercalate Token.separates_comma (spells_textItems items h)).enclose
      Token.separates_openArray Token.separates_closeArray
  | obj fields =>
    rw [text, outline, Outline.tokens]
    exact (Spells.intercalate Token.separates_comma (spells_textFields fields h)).enclose
      Token.separates_openObject Token.separates_closeObject

theorem spells_textItems (items : List Json)
    (h : ∀ x ∈ realsItems items, (Number.real x).ReadsBack) :
    List.Forall₂ Spells (textItems items) (Outline.tokensItems (outlineItems items)) := by
  cases items with
  | nil => exact .nil
  | cons item rest =>
    rw [realsItems, List.forall_mem_append] at h
    exact .cons (spells_text item h.1) (spells_textItems rest h.2)

/-- The texts of fields are scanned into their names and the lexemes of their outlines. -/
theorem spells_textFields (fields : List (String × Json))
    (h : ∀ x ∈ realsFields fields, (Number.real x).ReadsBack) :
    List.Forall₂ Spells (textFields fields) (Outline.tokensMembers (outlineFields fields)) := by
  match fields with
  | [] => exact .nil
  | (name, value) :: rest =>
    rw [realsFields, List.forall_mem_append] at h
    exact .cons (spells_field name Token.separates_colon (spells_text value h.1))
      (spells_textFields rest h.2)

end

/-- A text that spells the lexemes of an outline has this outline. -/
theorem parse?_of_spells {text : String} {outline : Outline} (h : Spells text outline.tokens) :
    Outline.parse? text.toUTF8.data = some outline := by
  have hscan : Token.scan? text.toUTF8.data = some outline.tokens := by
    have hspells := h [] [] (fun _ hb => by cases hb)
    rw [List.append_nil, List.append_nil] at hspells
    rw [Token.scan?_eq_scanFrom, data_toUTF8, hspells]
    simp [Token.scanFrom, Token.finish?]
  rw [Outline.parse?, hscan]
  exact Outline.ofTokens?_tokens outline

/-- The text of a value has the outline of the value. -/
theorem parse?_text {value : Json} (h : ∀ x ∈ value.reals, (Number.real x).ReadsBack) :
    Outline.parse? value.text.toUTF8.data = some value.outline :=
  parse?_of_spells (spells_text value h)

/-! ## Reading the outline of a value -/

theorem ofItems_outlineItems {levels : Nat} {items : List Json}
    (h : ∀ item ∈ items, ofOutline levels item.outline = .ok item) :
    ofItems levels (outlineItems items) = .ok items := by
  induction items with
  | nil => rfl
  | cons item rest ih =>
    obtain ⟨hitem, hrest⟩ := List.forall_mem_cons.mp h
    rw [outlineItems, ofItems, hitem, ih hrest]
    rfl

/-- Fields are read from their outlines if each of their values is. -/
theorem ofMembers_outlineFields {levels : Nat} {fields : List (String × Json)}
    (h : ∀ field ∈ fields, ofOutline levels field.2.outline = .ok field.2) :
    ofMembers levels (outlineFields fields) = .ok fields := by
  induction fields with
  | nil => rfl
  | cons field rest ih =>
    obtain ⟨hfield, hrest⟩ := List.forall_mem_cons.mp h
    rw [outlineFields, ofMembers, Piece.text_ofText, hfield, ih hrest]
    rfl

/-- A scalar is read from its outline at any level. -/
theorem ofOutline_scalar {value : Json} (hscalar : value.IsScalar)
    (h : ∀ x ∈ value.reals, (Number.real x).ReadsBack) (levels : Nat) :
    ofOutline levels value.outline = .ok value := by
  obtain ⟨scalar, rfl⟩ := hscalar
  cases scalar with
  | null => rfl
  | bool flag => rfl
  | num number =>
    have hvalue := (parse?_text_of_readsBack (readsBack_of_reals h)).2
    simp only [Scalar.toJson, outline, ofOutline, hvalue]
  | str text =>
    simp only [Scalar.toJson, outline, ofOutline, Piece.text_ofText]
    rfl

/-- A value is read from its outline. -/
theorem ofOutline_outline {value : Json} (hnames : value.DistinctNames)
    (h : ∀ x ∈ value.reals, (Number.real x).ReadsBack) {levels : Nat}
    (hdepth : value.depth ≤ levels) : ofOutline levels value.outline = .ok value := by
  induction hnames generalizing levels with
  | scalar hscalar => exact ofOutline_scalar hscalar h levels
  | @arr items _ ih =>
    rw [reals, realsItems_eq_flatMap] at h
    rw [depth] at hdepth
    obtain ⟨inner, rfl⟩ := Nat.exists_eq_add_of_lt hdepth
    have hitems : ∀ item ∈ items, ofOutline (depthItems items + inner) item.outline = .ok item := by
      intro item hitem
      have hle := Schema.depth_le_depthItems hitem
      exact ih item hitem (fun x hx => h x (List.mem_flatMap.mpr ⟨item, hitem, hx⟩)) (by omega)
    rw [outline, ofOutline, ofItems_outlineItems hitems]
    rfl
  | @obj record hdistinct _ ih =>
    rw [reals, realsFields_eq_flatMap] at h
    rw [depth] at hdepth
    obtain ⟨inner, rfl⟩ := Nat.exists_eq_add_of_lt hdepth
    have hfields : ∀ field ∈ record,
        ofOutline (depthFields record + inner) field.2.outline = .ok field.2 := by
      intro field hfield
      have hle := Schema.depth_le_depthFields hfield
      exact ih field hfield (fun x hx => h x (List.mem_flatMap.mpr ⟨field, hfield, hx⟩)) (by omega)
    rw [outline, ofOutline, ofMembers_outlineFields hfields]
    exact congrArg (fun fields => Except.ok (Json.obj fields)) hdistinct.collect_eq

/-- A text is read as the value that was printed. -/
theorem parse_text {value : Json} (hdepth : value.depth ≤ maxDepth) (hnames : value.DistinctNames)
    (h : ∀ x ∈ value.reals, (Number.real x).ReadsBack) :
    parse value.text.toUTF8.data = .ok value := by
  rw [parse, parse?_text h]
  exact ofOutline_outline hnames h hdepth

end Json

end CanonicalTree
