import CanonicalTree.Rule.Match
import Mathlib.Data.List.Basic

/-!
# What patterns mean

A match is found by a search that threads the values kept so far through all clauses and compares
each new value with the first one of its name. What it finds can be said without the search. A
pattern that is tried on a node *reaches* other patterns on other nodes: those that its clauses on
slots try on the children. It *holds* if every pattern reached fits its node, clause by clause, and
it *records* the values that the patterns reached name.

The search is taken apart by `Tries`, which says of a part of it that it fails or keeps certain
values one after the other, depending on tests that do not look at what is kept already. Trying a
pattern is keeping what it records if it holds (`Pattern.tries`).
-/

namespace CanonicalTree

/-! ## Clauses -/

/-- The clause allows the token. -/
def TokenClause.Fits : TokenClause → Option String → Prop
  | .any, _ => True
  | .present, token => token ≠ none
  | .absent, token => token = none
  | .equals text, token => token = some text
  | .bind _, token => token ≠ none

/-- The clause records a value under a name. -/
def TokenClause.Keeps (clause : TokenClause) (token : Option String) (name : String)
    (value : Capture) : Prop :=
  clause = .bind name ∧ ∃ text, token = some text ∧ value = .scalar (.str text)

/-- The clause allows what a property holds. -/
def PropertyClause.Fits : PropertyClause → Option Scalar → Prop
  | .present, found => found ≠ none
  | .absent, found => found = none
  | .equals value, found => ∃ actual, found = some actual ∧ value.sameValue actual = true
  | .bind _, found => found ≠ none

/-- The clause records a value under a name. -/
def PropertyClause.Keeps (clause : PropertyClause) (found : Option Scalar) (name : String)
    (value : Capture) : Prop :=
  clause = .bind name ∧ ∃ actual, found = some actual ∧ value = .scalar actual

/-- The clause allows the form of what a slot holds; what it asks of the children is left to the
patterns it leads to. -/
def SlotClause.Fits : SlotClause → Option Slot → Prop
  | .absent, slot => slot = none
  | .single _, slot => ∃ child, slot = some (.single child)
  | .sequence _ _, slot => ∃ nodes, slot = some (.sequence nodes)
  | .any _, slot => slot ≠ none
  | .optional _, slot => ∀ content, slot = some content → ∃ child, content = .single child

/-- The clause records a value under a name. -/
inductive SlotClause.Keeps : SlotClause → Option Slot → String → Capture → Prop
  | sequence (element : Option Pattern) (name : String) (nodes : List Node) :
    Keeps (.sequence element (some name)) (some (.sequence nodes)) name (.sequence nodes)
  | any (name : String) (slot : Slot) : Keeps (.any (some name)) (some slot) name (.ofSlot slot)

/-- The clause tries a pattern on a child. -/
inductive SlotClause.Leads : SlotClause → Option Slot → Pattern → Node → Prop
  | single (pattern : Pattern) (child : Node) :
    Leads (.single pattern) (some (.single child)) pattern child
  | optional (pattern : Pattern) (child : Node) :
    Leads (.optional pattern) (some (.single child)) pattern child
  | item {nodes : List Node} (pattern : Pattern) (bind : Option String) {child : Node} :
    child ∈ nodes → Leads (.sequence (some pattern) bind) (some (.sequence nodes)) pattern child

/-! ## Patterns -/

namespace Pattern

/-- All clauses of the pattern itself allow the node. -/
structure Fits (pattern : Pattern) (node : Node) : Prop where
  kind : pattern.kind.accepts node.kind = true
  token : pattern.token.Fits node.token
  properties : ∀ clause ∈ pattern.properties, clause.2.Fits (node.property? clause.1)
  slots : ∀ clause ∈ pattern.slots, clause.2.Fits (node.slot? clause.1)

/-- The pattern itself records a value under a name. -/
inductive Keeps (pattern : Pattern) (node : Node) : String → Capture → Prop
  | token {name : String} {value : Capture} :
    pattern.token.Keeps node.token name value → Keeps pattern node name value
  | property {clause : String × PropertyClause} {name : String} {value : Capture} :
    clause ∈ pattern.properties → clause.2.Keeps (node.property? clause.1) name value →
      Keeps pattern node name value
  | slot {clause : String × SlotClause} {name : String} {value : Capture} :
    clause ∈ pattern.slots → clause.2.Keeps (node.slot? clause.1) name value →
      Keeps pattern node name value
  | node {name : String} : pattern.bind = some name → Keeps pattern node name (.single node)

/-- Trying the first pattern on the first node comes to trying the second pattern on the second
node. -/
inductive Reaches : Pattern → Node → Pattern → Node → Prop
  | here (pattern : Pattern) (node : Node) : Reaches pattern node pattern node
  | step {pattern inner final : Pattern} {node child part : Node} {clause : String × SlotClause} :
    clause ∈ pattern.slots → clause.2.Leads (node.slot? clause.1) inner child →
      Reaches inner child final part → Reaches pattern node final part

/-- Every pattern reached fits its node. -/
def Holds (pattern : Pattern) (node : Node) : Prop :=
  ∀ inner part, pattern.Reaches node inner part → inner.Fits part

/-- Some pattern reached records the value under the name. -/
def Records (pattern : Pattern) (node : Node) (name : String) (value : Capture) : Prop :=
  ∃ inner part, pattern.Reaches node inner part ∧ inner.Keeps part name value

/-- All values recorded under one name are the same, the wildcard apart. -/
def Consistent (pattern : Pattern) (node : Node) : Prop :=
  ∀ name, name ≠ Captures.wildcard → ∀ value other, pattern.Records node name value →
    pattern.Records node name other → value.same other = true

end Pattern

/-- The clause fits, and so do all patterns that it leads to. -/
def SlotClause.Holds (clause : SlotClause) (slot : Option Slot) : Prop :=
  clause.Fits slot ∧ ∀ inner child, clause.Leads slot inner child → inner.Holds child

/-- The clause records the value, or a pattern that it leads to does. -/
def SlotClause.Records (clause : SlotClause) (slot : Option Slot) (name : String)
    (value : Capture) : Prop :=
  clause.Keeps slot name value ∨
    ∃ inner child, clause.Leads slot inner child ∧ inner.Records child name value

/-! What each clause on a slot comes to. -/

namespace SlotClause

variable {slot : Option Slot} {name : String} {value : Capture} {pattern : Pattern}
  {element : Option Pattern} {bind : Option String}

@[simp] theorem holds_absent : SlotClause.absent.Holds slot ↔ slot = none := by
  refine ⟨And.left, fun hslot => ⟨hslot, ?_⟩⟩
  rintro inner child ⟨⟩

@[simp] theorem not_records_absent : ¬ SlotClause.absent.Records slot name value := by
  rintro (hkeeps | ⟨inner, child, ⟨⟩, -⟩)
  cases hkeeps

/-- The clause for a single node holds if one stands in the slot and the pattern holds of it. -/
@[simp] theorem holds_single :
    (SlotClause.single pattern).Holds slot ↔
      ∃ child, slot = some (.single child) ∧ pattern.Holds child := by
  constructor
  · rintro ⟨⟨child, rfl⟩, hleads⟩
    exact ⟨child, rfl, hleads pattern child (.single pattern child)⟩
  · rintro ⟨child, rfl, hchild⟩
    refine ⟨⟨child, rfl⟩, ?_⟩
    rintro inner child ⟨⟩
    exact hchild

@[simp] theorem records_single :
    (SlotClause.single pattern).Records slot name value ↔
      ∃ child, slot = some (.single child) ∧ pattern.Records child name value := by
  constructor
  · rintro (hkeeps | ⟨inner, child, ⟨⟩, hrecords⟩)
    · cases hkeeps
    · exact ⟨child, rfl, hrecords⟩
  · rintro ⟨child, rfl, hrecords⟩
    exact Or.inr ⟨pattern, child, .single pattern child, hrecords⟩

/-- The clause for an optional node holds if there is none or the pattern holds of it. -/
@[simp] theorem holds_optional :
    (SlotClause.optional pattern).Holds slot ↔
      ∀ content, slot = some content → ∃ child, content = .single child ∧ pattern.Holds child := by
  constructor
  · rintro ⟨hfits, hleads⟩ content rfl
    obtain ⟨child, rfl⟩ := hfits content rfl
    exact ⟨child, rfl, hleads pattern child (.optional pattern child)⟩
  · intro h
    refine ⟨fun content hcontent => ?_, ?_⟩
    · obtain ⟨child, hchild, -⟩ := h content hcontent
      exact ⟨child, hchild⟩
    · rintro inner child ⟨⟩
      obtain ⟨child, ⟨⟩, hchild⟩ := h _ rfl
      exact hchild

@[simp] theorem records_optional :
    (SlotClause.optional pattern).Records slot name value ↔
      ∃ child, slot = some (.single child) ∧ pattern.Records child name value := by
  constructor
  · rintro (hkeeps | ⟨inner, child, ⟨⟩, hrecords⟩)
    · cases hkeeps
    · exact ⟨child, rfl, hrecords⟩
  · rintro ⟨child, rfl, hrecords⟩
    exact Or.inr ⟨pattern, child, .optional pattern child, hrecords⟩

/-- The clause for a sequence holds if one stands in the slot and the pattern, if any, holds of all
its nodes. -/
@[simp] theorem holds_sequence :
    (SlotClause.sequence element bind).Holds slot ↔
      ∃ nodes, slot = some (.sequence nodes) ∧
        ∀ pattern ∈ element, ∀ node ∈ nodes, pattern.Holds node := by
  constructor
  · rintro ⟨⟨nodes, rfl⟩, hleads⟩
    refine ⟨nodes, rfl, ?_⟩
    rintro pattern ⟨⟩ node hnode
    exact hleads pattern node (.item pattern bind hnode)
  · rintro ⟨nodes, rfl, hnodes⟩
    refine ⟨⟨nodes, rfl⟩, fun inner child hleads => ?_⟩
    cases hleads with
    | item _ _ hchild => exact hnodes inner rfl child hchild

/-- The clause for a sequence records what the pattern does for each of its nodes, and the sequence
itself if it has a name for it. -/
@[simp] theorem records_sequence :
    (SlotClause.sequence element bind).Records slot name value ↔
      ∃ nodes, slot = some (.sequence nodes) ∧
        ((∃ pattern ∈ element, ∃ node ∈ nodes, pattern.Records node name value) ∨
          bind = some name ∧ value = .sequence nodes) := by
  constructor
  · rintro (hkeeps | ⟨inner, child, hleads, hrecords⟩)
    · cases hkeeps with
      | sequence element name nodes => exact ⟨nodes, rfl, Or.inr ⟨rfl, rfl⟩⟩
    · cases hleads with
      | item _ _ hchild => exact ⟨_, rfl, Or.inl ⟨inner, rfl, child, hchild, hrecords⟩⟩
  · rintro ⟨nodes, rfl, ⟨pattern, ⟨⟩, child, hchild, hrecords⟩ | ⟨rfl, rfl⟩⟩
    · exact Or.inr ⟨pattern, child, .item pattern bind hchild, hrecords⟩
    · exact Or.inl (.sequence element name nodes)

@[simp] theorem holds_any : (SlotClause.any bind).Holds slot ↔ slot ≠ none := by
  refine ⟨And.left, fun hslot => ⟨hslot, ?_⟩⟩
  rintro inner child ⟨⟩

@[simp] theorem records_any :
    (SlotClause.any bind).Records slot name value ↔
      ∃ content, slot = some content ∧ bind = some name ∧ value = .ofSlot content := by
  constructor
  · rintro (hkeeps | ⟨inner, child, ⟨⟩, -⟩)
    cases hkeeps with
    | any name content => exact ⟨content, rfl, rfl, rfl⟩
  · rintro ⟨content, rfl, rfl, rfl⟩
    exact Or.inl (.any name content)

end SlotClause

namespace Pattern

variable {pattern : Pattern} {node : Node}

/-- A pattern holds of a node if its kind, its token, its properties and its slots pass. -/
theorem holds_iff : pattern.Holds node ↔ pattern.kind.accepts node.kind = true ∧
    pattern.token.Fits node.token ∧
    (∀ clause ∈ pattern.properties, clause.2.Fits (node.property? clause.1)) ∧
    ∀ clause ∈ pattern.slots, clause.2.Holds (node.slot? clause.1) := by
  constructor
  · intro h
    have hfits := h pattern node (.here pattern node)
    refine ⟨hfits.kind, hfits.token, hfits.properties, fun clause hclause => ?_⟩
    refine ⟨hfits.slots clause hclause, fun inner child hleads final part hreaches => ?_⟩
    exact h final part (.step hclause hleads hreaches)
  · rintro ⟨hkind, htoken, hproperties, hslots⟩ inner part hreaches
    cases hreaches with
    | here => exact ⟨hkind, htoken, hproperties, fun clause hclause => (hslots clause hclause).1⟩
    | step hclause hleads hreaches => exact (hslots _ hclause).2 _ _ hleads _ _ hreaches

/-- What a pattern records comes from the token, from the properties, from the slots, or is the node
itself. -/
theorem records_iff {name : String} {value : Capture} : pattern.Records node name value ↔
    pattern.token.Keeps node.token name value ∨
    (∃ clause ∈ pattern.properties, clause.2.Keeps (node.property? clause.1) name value) ∨
    (∃ clause ∈ pattern.slots, clause.2.Records (node.slot? clause.1) name value) ∨
    (pattern.bind = some name ∧ value = .single node) := by
  constructor
  · rintro ⟨inner, part, hreaches, hkeeps⟩
    cases hreaches with
    | here =>
      cases hkeeps with
      | token htoken => exact Or.inl htoken
      | property hclause hkeeps => exact Or.inr (Or.inl ⟨_, hclause, hkeeps⟩)
      | slot hclause hkeeps => exact Or.inr (Or.inr (Or.inl ⟨_, hclause, Or.inl hkeeps⟩))
      | node hbind => exact Or.inr (Or.inr (Or.inr ⟨hbind, rfl⟩))
    | step hclause hleads hreaches =>
      exact Or.inr (Or.inr (Or.inl
        ⟨_, hclause, Or.inr ⟨_, _, hleads, inner, part, hreaches, hkeeps⟩⟩))
  · rintro (htoken | ⟨clause, hclause, hkeeps⟩ | ⟨clause, hclause, hrecords⟩ | ⟨hbind, rfl⟩)
    · exact ⟨pattern, node, .here pattern node, .token htoken⟩
    · exact ⟨pattern, node, .here pattern node, .property hclause hkeeps⟩
    · rcases hrecords with hkeeps | ⟨inner, child, hleads, final, part, hreaches, hkeeps⟩
      · exact ⟨pattern, node, .here pattern node, .slot hclause hkeeps⟩
      · exact ⟨final, part, .step hclause hleads hreaches, hkeeps⟩
    · exact ⟨pattern, node, .here pattern node, .node hbind⟩

end Pattern

/-! ## Searches -/

/-- Keep values one after the other. -/
def Captures.keepAll (captures : Captures) (entries : List (String × Capture)) : Option Captures :=
  entries.foldlM (fun captures entry => captures.keep entry.1 entry.2) captures

/-- A part of a search: if the tests hold it keeps the recorded values one after the other, and
otherwise it fails, whatever has been kept before. -/
def Tries (attempt : Captures → Option Captures) (tests : Prop)
    (records : String → Capture → Prop) : Prop :=
  ∃ entries : List (String × Capture),
    (∀ name value, (name, value) ∈ entries ↔ records name value) ∧
    (tests → ∀ captures, attempt captures = captures.keepAll entries) ∧
    (¬ tests → ∀ captures, attempt captures = none)

namespace Tries

variable {attempt first second : Captures → Option Captures} {tests tests' : Prop}
  {records records' : String → Capture → Prop}

/-- A search does what an equal search does, in other words. -/
theorem of_eq (h : Tries first tests records)
    (hattempt : ∀ captures, attempt captures = first captures)
    (htests : tests' ↔ tests) (hrecords : ∀ name value, records' name value ↔ records name value) :
    Tries attempt tests' records' := by
  obtain ⟨entries, hentries, hholds, hfails⟩ := h
  refine ⟨entries, fun name value => (hentries name value).trans (hrecords name value).symm, ?_, ?_⟩
  · intro h captures
    rw [hattempt, hholds (htests.mp h)]
  · intro h captures
    rw [hattempt, hfails (mt htests.mpr h)]

theorem skip (hattempt : ∀ captures, attempt captures = some captures) (htests : tests)
    (hrecords : ∀ name value, ¬ records name value) : Tries attempt tests records :=
  ⟨[], fun name value => by simp [hrecords], fun _ captures => hattempt captures,
    fun h => absurd htests h⟩

theorem refuse (hattempt : ∀ captures, attempt captures = none) (htests : ¬ tests)
    (hrecords : ∀ name value, ¬ records name value) : Tries attempt tests records :=
  ⟨[], fun name value => by simp [hrecords], fun h => absurd h htests,
    fun _ captures => hattempt captures⟩

/-- A search that keeps one value. -/
theorem keep {name : String} {value : Capture}
    (hattempt : ∀ captures, attempt captures = captures.keep name value) (htests : tests)
    (hrecords : ∀ other found, records other found ↔ other = name ∧ found = value) :
    Tries attempt tests records := by
  refine ⟨[(name, value)], fun other found => by simp [hrecords], ?_, fun h => absurd htests h⟩
  intro _ captures
  rw [hattempt, Captures.keepAll, List.foldlM_cons]
  cases captures.keep name value <;> rfl

theorem keepAs (name : Option String) (value : Capture) :
    Tries (fun captures => captures.keepAs name value) True
      fun other found => name = some other ∧ found = value := by
  cases name with
  | none => exact skip (fun _ => rfl) trivial (by simp)
  | some name => exact keep (fun _ => rfl) trivial (by simp [eq_comm])

/-- A search behind a condition. -/
theorem guard (accepted : Bool) (h : Tries attempt tests records) :
    Tries (fun captures => if accepted then attempt captures else none)
      (accepted = true ∧ tests) records := by
  obtain ⟨entries, hentries, hholds, hfails⟩ := h
  refine ⟨entries, hentries, ?_, ?_⟩
  · rintro ⟨haccepted, htests⟩ captures
    show (if accepted = true then attempt captures else none) = _
    rw [if_pos haccepted, hholds htests]
  · intro h captures
    show (if accepted = true then attempt captures else none) = none
    split
    · next haccepted => exact hfails (fun htests => h ⟨haccepted, htests⟩) captures
    · rfl

/-- Two searches, one after the other. -/
theorem bind (h : Tries first tests records) (h' : Tries second tests' records') :
    Tries (fun captures => (first captures).bind second) (tests ∧ tests')
      fun name value => records name value ∨ records' name value := by
  obtain ⟨entries, hentries, hholds, hfails⟩ := h
  obtain ⟨entries', hentries', hholds', hfails'⟩ := h'
  refine ⟨entries ++ entries', fun name value => by simp [hentries, hentries'], ?_, ?_⟩
  · rintro ⟨htests, htests'⟩ captures
    have hsecond : second = fun kept => kept.keepAll entries' := funext (hholds' htests')
    show (first captures).bind second = _
    rw [hholds htests, hsecond, Captures.keepAll, Captures.keepAll, List.foldlM_append]
    rfl
  · intro h captures
    show (first captures).bind second = none
    -- if only the tests of the second part fail, the first part may still refuse a value
    by_cases htests : tests
    · have hsecond : second = fun _ => none := funext (hfails' fun htests' => h ⟨htests, htests'⟩)
      rw [hsecond]
      cases first captures <;> rfl
    · rw [hfails htests]
      rfl

/-- As many searches as there are items, one after the other. -/
theorem foldlM {α : Type} (items : List α) {attempt : α → Captures → Option Captures}
    {tests : α → Prop} {records : α → String → Capture → Prop}
    (h : ∀ item ∈ items, Tries (attempt item) (tests item) (records item)) :
    Tries (fun captures => items.foldlM (fun captures item => attempt item captures) captures)
      (∀ item ∈ items, tests item) fun name value => ∃ item ∈ items, records item name value := by
  induction items with
  | nil => exact skip (fun _ => rfl) (by simp) (by simp)
  | cons item rest ih =>
    have hrest := ih fun item hitem => h item (List.mem_cons_of_mem _ hitem)
    refine ((h item List.mem_cons_self).bind hrest).of_eq ?_ ?_ ?_
    · intro captures
      rw [List.foldlM_cons]
      rfl
    · exact List.forall_mem_cons
    · intro name value
      exact List.exists_mem_cons_iff ..

end Tries

/-! ## Patterns as searches -/

/-- A clause for the token tests whether it fits and keeps what it says. -/
theorem TokenClause.tries (clause : TokenClause) (token : Option String) :
    Tries (clause.match? token) (clause.Fits token) (clause.Keeps token) := by
  cases clause with
  | any => exact .skip (fun _ => rfl) trivial (by simp [Keeps])
  | present =>
    cases token with
    | none => exact .refuse (fun _ => rfl) (by simp [Fits]) (by simp [Keeps])
    | some text => exact .skip (fun _ => rfl) (by simp [Fits]) (by simp [Keeps])
  | absent =>
    cases token with
    | none => exact .skip (fun _ => rfl) rfl (by simp [Keeps])
    | some text => exact .refuse (fun _ => rfl) (by simp [Fits]) (by simp [Keeps])
  | equals expected =>
    cases token with
    | none => exact .refuse (fun _ => rfl) (by simp [Fits]) (by simp [Keeps])
    | some text =>
      by_cases h : expected = text
      · exact .skip (fun _ => if_pos h) (by simp [Fits, h]) (by simp [Keeps])
      · exact .refuse (fun _ => if_neg h) (by simp [Fits, Ne.symm h]) (by simp [Keeps])
  | bind name =>
    cases token with
    | none => exact .refuse (fun _ => rfl) (by simp [Fits]) (by simp [Keeps])
    | some text => exact .keep (fun _ => rfl) (by simp [Fits]) (by simp [Keeps, eq_comm])

/-- A clause for a property tests whether it fits and keeps what it says. -/
theorem PropertyClause.tries (clause : PropertyClause) (found : Option Scalar) :
    Tries (clause.match? found) (clause.Fits found) (clause.Keeps found) := by
  cases clause with
  | present =>
    cases found with
    | none => exact .refuse (fun _ => rfl) (by simp [Fits]) (by simp [Keeps])
    | some actual => exact .skip (fun _ => rfl) (by simp [Fits]) (by simp [Keeps])
  | absent =>
    cases found with
    | none => exact .skip (fun _ => rfl) rfl (by simp [Keeps])
    | some actual => exact .refuse (fun _ => rfl) (by simp [Fits]) (by simp [Keeps])
  | equals expected =>
    cases found with
    | none => exact .refuse (fun _ => rfl) (by simp [Fits]) (by simp [Keeps])
    | some actual =>
      by_cases h : expected.sameValue actual = true
      · exact .skip (fun _ => if_pos h) (by simp [Fits, h]) (by simp [Keeps])
      · exact .refuse (fun _ => if_neg h) (by simp [Fits, h]) (by simp [Keeps])
  | bind name =>
    cases found with
    | none => exact .refuse (fun _ => rfl) (by simp [Fits]) (by simp [Keeps])
    | some actual => exact .keep (fun _ => rfl) (by simp [Fits]) (by simp [Keeps, eq_comm])

/-- The pattern that a clause tries on children. -/
def SlotClause.pattern? : SlotClause → Option Pattern
  | .absent => none
  | .single pattern => some pattern
  | .sequence element _ => element
  | .any _ => none
  | .optional pattern => some pattern

/-- What passes from the patterns in the clauses of a pattern to the pattern holds of every
pattern. -/
theorem Pattern.induction_clauses {motive : Pattern → Prop}
    (step : ∀ pattern : Pattern,
      (∀ clause ∈ pattern.slots, ∀ inner ∈ clause.2.pattern?, motive inner) → motive pattern)
    (pattern : Pattern) : motive pattern := by
  -- patterns nest through lists of clauses and optional element patterns
  refine @Pattern.rec motive (fun clause => ∀ inner ∈ clause.pattern?, motive inner)
    (fun clauses => ∀ clause ∈ clauses, ∀ inner ∈ clause.2.pattern?, motive inner)
    (fun element => ∀ inner ∈ element, motive inner)
    (fun clause => ∀ inner ∈ clause.2.pattern?, motive inner) ?_ ?_ ?_ ?_ ?_ ?_ ?_ ?_ ?_ ?_ ?_
    pattern
  · intro kind token properties slots bind hslots
    exact step ⟨kind, token, properties, slots, bind⟩ hslots
  · simp [SlotClause.pattern?]
  · intro pattern hpattern inner hinner
    cases hinner
    exact hpattern
  · intro element bind helement
    exact helement
  · simp [SlotClause.pattern?]
  · intro pattern hpattern inner hinner
    cases hinner
    exact hpattern
  · simp
  · intro clause rest hclause hrest
    exact List.forall_mem_cons.mpr ⟨hclause, hrest⟩
  · simp
  · intro pattern hpattern inner hinner
    cases hinner
    exact hpattern
  · intro name clause hclause
    exact hclause

namespace SlotClause

/-- A clause for a slot tests and records as its patterns do. -/
theorem tries {clause : SlotClause} (slot : Option Slot)
    (h : ∀ inner ∈ clause.pattern?, ∀ node,
      Tries (inner.match? node) (inner.Holds node) (inner.Records node)) :
    Tries (clause.match? slot) (clause.Holds slot) (clause.Records slot) := by
  match clause, slot with
  | .absent, none => exact .skip (fun _ => by rw [match?]) (by simp) (by simp)
  | .absent, some _ => exact .refuse (fun _ => by simp [match?]) (by simp) (by simp)
  | .single _, none => exact .refuse (fun _ => by simp [match?]) (by simp) (by simp)
  | .single _, some (.sequence _) => exact .refuse (fun _ => by simp [match?]) (by simp) (by simp)
  | .single pattern, some (.single child) =>
    exact (h pattern rfl child).of_eq (fun _ => by rw [match?]) (by simp) (by simp)
  | .optional _, none => exact .skip (fun _ => by rw [match?]) (by simp) (by simp)
  | .optional _, some (.sequence _) =>
    exact .refuse (fun _ => by simp [match?]) (by simp) (by simp)
  | .optional pattern, some (.single child) =>
    exact (h pattern rfl child).of_eq (fun _ => by rw [match?]) (by simp) (by simp)
  | .sequence element _, none =>
    refine .refuse (fun _ => ?_) (by simp) (by simp)
    cases element <;> simp [match?]
  | .sequence element _, some (.single _) =>
    refine .refuse (fun _ => ?_) (by simp) (by simp)
    cases element <;> simp [match?]
  | .sequence none bind, some (.sequence nodes) =>
    exact (Tries.keepAs bind (.sequence nodes)).of_eq (fun _ => by rw [match?]) (by simp) (by simp)
  | .sequence (some pattern) bind, some (.sequence nodes) =>
    have hnodes := Tries.foldlM nodes fun node _ => h pattern rfl node
    refine (hnodes.bind (Tries.keepAs bind (.sequence nodes))).of_eq (fun captures => ?_) (by simp)
      (by simp)
    rw [match?]
    cases nodes.foldlM (fun captures node => pattern.match? node captures) captures <;> rfl
  | .any _, none => exact .refuse (fun _ => by simp [match?]) (by simp) (by simp)
  | .any bind, some slot =>
    exact (Tries.keepAs bind (.ofSlot slot)).of_eq (fun _ => by rw [match?]) (by simp) (by simp)

end SlotClause

/-- Clauses for slots are tried one after the other. -/
theorem Pattern.matchSlots?_eq (clauses : List (String × SlotClause)) (node : Node)
    (captures : Captures) :
    matchSlots? clauses node captures =
      clauses.foldlM (fun captures clause => clause.2.match? (node.slot? clause.1) captures)
        captures := by
  induction clauses generalizing captures with
  | nil => simp [matchSlots?]
  | cons clause rest ih =>
    rw [matchSlots?, List.foldlM_cons]
    cases clause.2.match? (node.slot? clause.1) captures with
    | none => rfl
    | some next => exact ih next

/-- Matching a pattern tests whether it holds of the node and records what it says. -/
theorem Pattern.tries (pattern : Pattern) (node : Node) :
    Tries (pattern.match? node) (pattern.Holds node) (pattern.Records node) := by
  induction pattern using induction_clauses generalizing node with
  | step pattern ih =>
    have htoken := pattern.token.tries node.token
    have hproperties := Tries.foldlM pattern.properties fun clause _ =>
      clause.2.tries (node.property? clause.1)
    have hslots := Tries.foldlM pattern.slots fun clause hclause =>
      SlotClause.tries (node.slot? clause.1) (ih clause hclause)
    -- the node itself is kept last, after all values from inside
    have hnode := Tries.keepAs pattern.bind (.single node)
    refine ((htoken.bind (hproperties.bind (hslots.bind hnode))).guard
      (pattern.kind.accepts node.kind)).of_eq ?_ ?_ ?_
    · intro captures
      obtain ⟨kind, token, properties, slots, bind⟩ := pattern
      rw [match?]
      simp only [matchSlots?_eq]
      rfl
    · rw [holds_iff]
      simp
    · intro name value
      rw [records_iff]

end CanonicalTree
