import CanonicalTree.Proofs.Numerals
import CanonicalTree.Proofs.Traversal
import Mathlib.Data.List.SplitBy

/-!
# Paths and their texts

A path is shown without quotes, so that paths with a `.` or a `[` in a name may look like others.
Other names are plain, whatever else they are made of. In the text of a path through plain names
every `.` and every `[` begins a step, so the text can be cut into the texts of the steps
(`Path.cut_text`), and a step is known by its text. So such a path is known by its text, and the
nodes of a tree with plain names are shown under different texts (`Path.text_unambiguous`).
-/

namespace CanonicalTree

/-! ## Steps -/

/-- A name that cannot be taken for several steps. -/
def PlainName (name : String) : Prop :=
  '.' ∉ name.toList ∧ '[' ∉ name.toList

namespace Segment

/-- The characters that begin a step. -/
def opens (c : Char) : Bool :=
  c = '.' || c = '['

theorem toList_text_field (name : String) : (field name).text.toList = '.' :: name.toList := by
  rw [text, String.toList_append]
  rfl

theorem toList_text_index (i : Nat) :
    (index i).text.toList = '[' :: (Nat.toDigits 10 i ++ [']']) := by
  rw [text, String.toList_append, String.toList_append, Number.toList_toString]
  rfl

/-- A step is known by its text. -/
theorem text_injective : Function.Injective text := by
  intro segment other h
  have hchars := congrArg String.toList h
  cases segment with
  | field name =>
    cases other with
    | field name' =>
      rw [toList_text_field, toList_text_field] at hchars
      rw [String.toList_inj.mp (List.cons.inj hchars).2]
    | index j =>
      rw [toList_text_field, toList_text_index] at hchars
      cases (List.cons.inj hchars).1
  | index i =>
    cases other with
    | field name' =>
      rw [toList_text_field, toList_text_index] at hchars
      cases (List.cons.inj hchars).1
    | index j =>
      rw [toList_text_index, toList_text_index] at hchars
      have hdigits := List.append_cancel_right (List.cons.inj hchars).2
      rw [← Nat.ofDigitChars_ten_toDigits (n := i), hdigits, Nat.ofDigitChars_ten_toDigits]

/-- A digit begins no step. -/
theorem opens_of_isDigit {c : Char} (h : c.isDigit = true) : opens c = false := by
  have hdot : c ≠ '.' := by
    rintro rfl
    cases h
  have hbracket : c ≠ '[' := by
    rintro rfl
    cases h
  simp [opens, hdot, hbracket]

/-- In the text of a step with a plain name only the first character begins a step. -/
theorem exists_toList_text {segment : Segment}
    (h : ∀ name, segment = .field name → PlainName name) :
    ∃ first rest, segment.text.toList = first :: rest ∧ opens first = true ∧
      ∀ c ∈ rest, opens c = false := by
  cases segment with
  | field name =>
    obtain ⟨hdot, hbracket⟩ := h name rfl
    refine ⟨'.', name.toList, toList_text_field name, rfl, fun c hc => ?_⟩
    have hne : c ≠ '.' := fun heq => hdot (heq ▸ hc)
    have hne' : c ≠ '[' := fun heq => hbracket (heq ▸ hc)
    simp [opens, hne, hne']
  | index i =>
    refine ⟨'[', Nat.toDigits 10 i ++ [']'], toList_text_index i, rfl, fun c hc => ?_⟩
    rcases List.mem_append.mp hc with hc | hc
    · exact opens_of_isDigit (Nat.isDigit_of_mem_toDigits (by decide) (by decide) hc)
    · rw [List.mem_singleton.mp hc]
      rfl

end Segment

/-! ## Paths -/

namespace Path

/-- All field names of the path are plain. -/
def Plain (path : Path) : Prop :=
  ∀ name, .field name ∈ path → PlainName name

/-- The text of a path behind the root, cut in front of all characters that begin a step. -/
def cut (text : String) : List (List Char) :=
  text.toList.tail.splitBy fun _ c => !Segment.opens c

/-- The text of a path is the root followed by its steps. -/
theorem toList_text (path : Path) :
    path.text.toList = '$' :: (path.map fun segment => segment.text.toList).flatten := by
  rw [text, String.toList_append, String.toList_join, List.flatMap_map]
  rfl

/-- The text of a path through plain names is cut into the texts of its steps. -/
theorem cut_text {path : Path} (h : path.Plain) :
    cut path.text = path.map fun segment => segment.text.toList := by
  have hsteps : ∀ step ∈ path.map fun segment => segment.text.toList,
      ∃ first rest, step = first :: rest ∧ Segment.opens first = true ∧
        ∀ c ∈ rest, Segment.opens c = false := by
    intro step hstep
    obtain ⟨segment, hsegment, rfl⟩ := List.mem_map.mp hstep
    exact Segment.exists_toList_text fun name hname => h name (hname ▸ hsegment)
  rw [cut, toList_text, List.tail_cons]
  refine List.splitBy_flatten ?_ ?_ ?_
  · intro hnil
    obtain ⟨first, rest, heq, -⟩ := hsteps [] hnil
    cases heq
  · intro step hstep
    -- behind its first character a step is not cut
    obtain ⟨first, rest, rfl, -, hrest⟩ := hsteps step hstep
    refine (List.pairwise_cons.mpr ⟨?_, List.pairwise_of_forall_mem_list ?_⟩).isChain
    · intro c hc
      rw [hrest c hc]
      rfl
    · intro _ _ c hc
      rw [hrest c hc]
      rfl
  · refine (List.pairwise_of_forall_mem_list fun step hstep next hnext => ?_).isChain
    obtain ⟨_, _, rfl, -, -⟩ := hsteps step hstep
    obtain ⟨first, rest, rfl, hfirst, -⟩ := hsteps next hnext
    refine ⟨List.cons_ne_nil _ _, List.cons_ne_nil _ _, ?_⟩
    rw [List.head_cons, hfirst]
    rfl

variable {path other : Path}

/-- Plain paths with the same text are the same. -/
theorem eq_of_text_eq (hpath : path.Plain) (hother : other.Plain) (h : path.text = other.text) :
    path = other := by
  have hcut := congrArg cut h
  rw [cut_text hpath, cut_text hother] at hcut
  refine List.map_injective_iff.mpr ?_ hcut
  intro segment segment' hsegment
  exact Segment.text_injective (String.toList_inj.mp hsegment)

end Path

/-! ## Trees -/

namespace Node

/-- All slots of the tree have plain names. -/
def PlainSlots (tree : Node) : Prop :=
  ∀ part ∈ tree.descendants, ∀ name ∈ Fields.keys part.slots, PlainName name

/-- Paths to the nodes of a tree with plain slot names are plain. -/
theorem plain_of_follow {tree part : Node} {path : Path} (htree : tree.PlainSlots)
    (h : tree.follow path = some part) : path.Plain := by
  induction tree using induction_children generalizing path with
  | step tree ih =>
    rcases follow_cases h with ⟨rfl, -⟩ | ⟨steps, child, rest, rfl, hchild, hfollow⟩
    · simp [Path.Plain]
    · have hrest : Path.Plain rest := by
        refine ih child hchild.mem_children (fun inner hinner => htree inner ?_) hfollow
        exact mem_descendants.mpr (Or.inr ⟨child, hchild.mem_children, hinner⟩)
      have hplain : ∀ slot content, tree.slot? slot = some content → PlainName slot := by
        intro slot content hslot
        exact htree tree tree.self_mem_descendants slot
          (Fields.mem_keys_of_mem (Fields.mem_of_get? hslot))
      intro name hname
      rcases List.mem_append.mp hname with hname | hname
      · cases hchild with
        | single hslot =>
          cases List.mem_singleton.mp hname
          exact hplain _ _ hslot
        | item hslot _ =>
          rcases List.mem_cons.mp hname with heq | hname
          · cases heq
            exact hplain _ _ hslot
          · cases List.mem_singleton.mp hname
      · exact hrest name hname

/-- No two paths to nodes of the tree have the same text. -/
theorem eq_of_text_eq {tree part part' : Node} {path other : Path} (htree : tree.PlainSlots)
    (hpath : tree.follow path = some part) (hother : tree.follow other = some part')
    (h : path.text = other.text) : path = other :=
  Path.eq_of_text_eq (plain_of_follow htree hpath) (plain_of_follow htree hother) h

end Node

/-- A path through plain names is known by its text. So the nodes of a tree with plain names, which
all have a path, have paths with different texts, and so do the nodes that a search reports. -/
theorem Path.text_unambiguous :
    (∀ path other : Path, path.Plain → other.Plain → path.text = other.text → path = other) ∧
    ∀ tree : Node, tree.WellFormed → tree.PlainSlots →
      tree.parts.map Prod.snd = tree.descendants ∧
      ((tree.parts.map Prod.fst).map Path.text).Nodup ∧
      ∀ kinds, ((tree.findKinds kinds).map Path.text).Nodup := by
  refine ⟨fun path other => Path.eq_of_text_eq, fun tree hwell hplain => ?_⟩
  have hfollow : ∀ path ∈ tree.parts.map Prod.fst, ∃ part, tree.follow path = some part := by
    intro path hpath
    obtain ⟨⟨path, part⟩, hmem, rfl⟩ := List.mem_map.mp hpath
    exact ⟨part, Node.follow_of_mem_parts hwell hmem⟩
  have hparts : ((tree.parts.map Prod.fst).map Path.text).Nodup := by
    refine (Node.nodup_parts hwell).map_on fun path hpath other hother htext => ?_
    obtain ⟨part, hpart⟩ := hfollow path hpath
    obtain ⟨part', hpart'⟩ := hfollow other hother
    exact Node.eq_of_text_eq hplain hpart hpart' htext
  refine ⟨tree.map_snd_parts, hparts, fun kinds => ?_⟩
  rw [Node.findKinds_eq]
  exact hparts.sublist ((List.filter_sublist.map Prod.fst).map Path.text)

/-- A list with slot names that are empty, are the sign of the root or end like an index. -/
def oddlyNamed : Node :=
  { kind := "list"
    slots :=
      [("", .single { kind := "item" }),
       ("$", .sequence [{ kind := "mark" }, { kind := "mark" }]),
       ("1]", .sequence
        [{ kind := "item" }, { kind := "mark", slots := [("", .single { kind := "item" })] }])] }

/-- Slots with odd but plain names still have distinct texts. -/
theorem Path.text_unambiguous_oddlyNamed :
    (Path.Plain [.field "1", .index 12] ∧ Path.Plain [.field "1", .index 1, .field "2]"] ∧
      Path.text [.field "1", .index 12] ≠ Path.text [.field "1", .index 1, .field "2]"]) ∧
    oddlyNamed.WellFormed ∧ oddlyNamed.PlainSlots ∧
      (oddlyNamed.parts.map Prod.fst).map Path.text =
        ["$", "$.", "$.$[0]", "$.$[1]", "$.1][0]", "$.1][1]", "$.1][1]."] ∧
      ((oddlyNamed.parts.map Prod.fst).map Path.text).Nodup ∧
      ((oddlyNamed.findKinds ["mark"]).map Path.text).Nodup := by
  have hindex : Path.Plain [.field "1", .index 12] := by
    simp [Path.Plain, PlainName]
  have hfield : Path.Plain [.field "1", .index 1, .field "2]"] := by
    simp [Path.Plain, PlainName]
  have hwell : oddlyNamed.WellFormed := by
    simp [oddlyNamed, Node.WellFormed, Node.WellFormedSlots, Slot.WellFormed,
      Node.WellFormedNodes, Fields.Distinct]
  have hplain : oddlyNamed.PlainSlots := by
    simp [oddlyNamed, Node.PlainSlots, PlainName, Node.descendants, Node.descendantsOfSlots,
      Slot.descendants, Node.descendantsOfNodes]
  obtain ⟨heq, htrees⟩ := Path.text_unambiguous
  obtain ⟨-, hparts, hsearch⟩ := htrees oddlyNamed hwell hplain
  refine ⟨⟨hindex, hfield, fun htext => ?_⟩, hwell, hplain, rfl, hparts, hsearch ["mark"]⟩
  cases heq _ _ hindex hfield htext

/-- A name that is not plain may be taken for two steps. -/
example : Path.text [.field "name.text"] = Path.text [.field "name", .field "text"] := rfl

end CanonicalTree
