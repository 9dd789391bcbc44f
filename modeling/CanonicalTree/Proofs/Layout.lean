import CanonicalTree.Proofs.Outlines

/-!
# Indented text

Indentation does not matter to a reader: line breaks and blanks stand only around brackets, behind
commas and behind colons, where the scanner drops them. So the indented text of a value spells the
same lexemes as its compact text, and with a line break after it either of them is read as the value
(`Json.parse_written`).
-/

namespace CanonicalTree.Json

open Token (Spells Separates)

/-- A blank separates, and is no lexeme. -/
theorem Token.separates_of_blank {text : String} {b : UInt8} (htext : utf8 text.toList = [b])
    (hblank : b = 0x0A ∨ b = 0x20) : Separates text [] where
  delimited rest := by
    rw [htext]
    rcases hblank with rfl | rfl <;> exact delimited_cons rfl rest
  scanFrom_eq found rest := by
    rw [htext, List.singleton_append]
    rcases hblank with rfl | rfl <;> exact scanFrom_cons rfl rest

/-- The indentation of a new line separates. -/
theorem separates_newline (level : Nat) : Separates (newline level) [] := by
  have hspaces : ∀ n, Separates ("\n" ++ String.ofList (List.replicate n ' ')) [] := by
    intro n
    induction n with
    | zero => exact Token.separates_of_blank rfl (Or.inl rfl)
    | succ n ih =>
      rw [List.replicate_succ', String.ofList_append, ← String.append_assoc]
      exact ih.append (Token.separates_of_blank rfl (Or.inr rfl))
  exact hspaces (2 * level)

/-- The entries of a container spell the same on lines of their own. -/
theorem spells_block {opening closing : String} {openToken closeToken : Token}
    {entries : List String} {tokens : List (List Token)} (level : Nat)
    (hopening : Separates opening [openToken]) (hclosing : Separates closing [closeToken])
    (h : List.Forall₂ Spells entries tokens) :
    Spells (block level opening closing entries)
      (openToken :: (List.intercalate [.comma] tokens ++ [closeToken])) := by
  cases h with
  | nil =>
    have hempty : Spells "" [] := fun found rest _ => rfl
    have hboth := hempty.enclose hopening hclosing
    rw [String.append_empty] at hboth
    exact hboth
  | cons hfirst hothers =>
    have hcomma := Token.separates_comma.append (separates_newline (level + 1))
    have hinner := Spells.intercalate hcomma (.cons hfirst hothers)
    have hboth := hinner.enclose (hopening.append (separates_newline (level + 1)))
      ((separates_newline level).append hclosing)
    rw [← String.append_assoc] at hboth
    exact hboth

mutual

/-- The indented text of a value is scanned into the lexemes of its outline. -/
theorem spells_prettyAt (level : Nat) (value : Json)
    (h : ∀ x ∈ value.reals, (Number.real x).ReadsBack) :
    Spells (prettyAt level value) value.outline.tokens := by
  cases value with
  | null =>
    rw [prettyAt]
    exact fun found rest _ => rfl
  | bool flag =>
    cases flag <;> rw [prettyAt] <;> exact fun found rest _ => rfl
  | num number =>
    rw [prettyAt]
    exact spells_number (readsBack_of_reals h)
  | str text =>
    rw [prettyAt]
    exact spells_quote text
  | arr items =>
    rw [prettyAt, outline, Outline.tokens]
    exact spells_block level Token.separates_openArray Token.separates_closeArray
      (spells_prettyItems (level + 1) items h)
  | obj fields =>
    rw [prettyAt, outline, Outline.tokens]
    exact spells_block level Token.separates_openObject Token.separates_closeObject
      (spells_prettyFields (level + 1) fields h)

/-- The indented texts of items are scanned into the lexemes of their outlines. -/
theorem spells_prettyItems (level : Nat) (items : List Json)
    (h : ∀ x ∈ realsItems items, (Number.real x).ReadsBack) :
    List.Forall₂ Spells (prettyItems level items) (Outline.tokensItems (outlineItems items)) := by
  cases items with
  | nil => exact .nil
  | cons item rest =>
    rw [realsItems, List.forall_mem_append] at h
    exact .cons (spells_prettyAt level item h.1) (spells_prettyItems level rest h.2)

/-- The indented texts of fields are scanned into their names and the lexemes of their outlines. -/
theorem spells_prettyFields (level : Nat) (fields : List (String × Json))
    (h : ∀ x ∈ realsFields fields, (Number.real x).ReadsBack) :
    List.Forall₂ Spells (prettyFields level fields)
      (Outline.tokensMembers (outlineFields fields)) := by
  match fields with
  | [] => exact .nil
  | (name, value) :: rest =>
    rw [realsFields, List.forall_mem_append] at h
    have hblank : Separates " " [] := Token.separates_of_blank rfl (Or.inr rfl)
    have hcolon : Separates ": " [.colon] := Token.separates_colon.append hblank
    exact .cons (spells_field name hcolon (spells_prettyAt level value h.1))
      (spells_prettyFields level rest h.2)

end

end CanonicalTree.Json
