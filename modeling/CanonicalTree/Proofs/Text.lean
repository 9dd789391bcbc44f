import CanonicalTree.Proofs.Cursor
import Mathlib.Data.List.DropRight

/-!
# Locations in encoded text

A source is read by its code units alone, and no character is ever decoded. When its bytes are the
encoding of a text, counting units is counting characters all the same: every character has exactly
one unit that starts it, and a line end is the only character with the unit of a line end in it.
So the line and the column of a place in a text do not depend on how the text is encoded.
-/

namespace CanonicalTree

namespace Encoding

/-! ## Encoding text -/

/-- The UTF-16 code units of a character: itself, or a surrogate pair. -/
def utf16Units (c : Char) : List Nat :=
  if c.toNat < 0x10000 then [c.toNat]
  else [0xD800 + (c.toNat - 0x10000) / 0x400, 0xDC00 + (c.toNat - 0x10000) % 0x400]

/-- The code units of a character. -/
def charUnits (encoding : Encoding) (c : Char) : List Nat :=
  match encoding with
  | .utf8 => (String.utf8EncodeChar c).map UInt8.toNat
  | .utf16LE => utf16Units c
  | .utf16BE => utf16Units c

/-- The code units of a text. -/
def textUnits (encoding : Encoding) (text : List Char) : List Nat :=
  text.flatMap encoding.charUnits

/-- The bytes of a code unit. -/
def unitBytes (encoding : Encoding) (unit : Nat) : List UInt8 :=
  match encoding with
  | .utf8 => [UInt8.ofNat unit]
  | .utf16LE => [UInt8.ofNat (unit % 256), UInt8.ofNat (unit / 256)]
  | .utf16BE => [UInt8.ofNat (unit / 256), UInt8.ofNat (unit % 256)]

/-- The bytes of a text. -/
def encode (encoding : Encoding) (text : String) : Bytes :=
  ((encoding.textUnits text.toList).flatMap encoding.unitBytes).toArray

/-- UTF-8 is the encoding that strings have themselves. -/
theorem encode_utf8 (text : String) : encode .utf8 text = text.toByteArray.data := by
  have hbytes : ∀ bytes : List UInt8,
      (bytes.map UInt8.toNat).flatMap (unitBytes .utf8) = bytes := by
    intro bytes
    induction bytes with
    | nil => rfl
    | cons byte rest ih => simpa [unitBytes] using ih
  have htext : textUnits .utf8 text.toList =
      (text.toList.flatMap String.utf8EncodeChar).map UInt8.toNat := by
    rw [List.map_flatMap]
    rfl
  rw [encode, htext, hbytes, ← String.utf8Encode_toList, List.utf8Encode, List.data_toByteArray]

/-! ## The units of a character -/

/-- How many different code units there are. -/
def unitCount (encoding : Encoding) : Nat := 256 ^ encoding.unitWidth

/-- The units of a character are one that starts it and some that continue it. -/
structure CharShape (encoding : Encoding) (c : Char) (first : Nat) (rest : List Nat) : Prop where
  units_eq : encoding.charUnits c = first :: rest
  first_starts : encoding.startsCharacter first = true
  first_lt : first < encoding.unitCount
  first_lineEnd : first = Source.lineEnd → c = '\n'
  rest_continues : ∀ unit ∈ rest, encoding.startsCharacter unit = false
  rest_lt : ∀ unit ∈ rest, unit < encoding.unitCount

/-- A leading byte of UTF-8 is continued by bytes that hold six bits each. -/
theorem CharShape.of_utf8 {c : Char} {first : Nat} (digits : List Nat)
    (hunits : charUnits .utf8 c =
      first :: digits.map fun digit => (UInt8.ofNat (digit % 0x40 + 0x80)).toNat)
    (hfirst : first < 0x80 ∨ 0xC0 ≤ first ∧ first < 0x100)
    (hlineEnd : first = Source.lineEnd → c = '\n') :
    ∃ rest, CharShape .utf8 c first rest := by
  refine ⟨_, hunits, ?_, ?_, hlineEnd, ?_, ?_⟩
  · simp [startsCharacter]
    omega
  · simp [unitCount, unitWidth]
    omega
  · intro unit hunit
    obtain ⟨digit, -, rfl⟩ := List.mem_map.mp hunit
    simp [startsCharacter]
    omega
  · intro unit hunit
    obtain ⟨digit, -, rfl⟩ := List.mem_map.mp hunit
    exact UInt8.toNat_lt _

/-- In UTF-8 a character has one unit that begins it, and others that continue it. -/
theorem utf8_charShape (c : Char) : ∃ first rest, CharShape .utf8 c first rest := by
  have hunits : charUnits .utf8 c = (String.utf8EncodeChar c).map UInt8.toNat := rfl
  have hlineEnd : c.val.toNat = Source.lineEnd → c = '\n' := fun h => Char.toNat_inj.mp h
  simp only [String.utf8EncodeChar] at hunits
  generalize c.val.toNat = v at hunits hlineEnd
  split_ifs at hunits with h1 h2 h3
  · have hv : (UInt8.ofNat v).toNat = v := by simp; omega
    exact ⟨_, CharShape.of_utf8 [] hunits (by omega) (by rwa [hv])⟩
  · exact ⟨_, CharShape.of_utf8 [v] hunits (by simp; omega) (by simp [Source.lineEnd]; omega)⟩
  · exact ⟨_, CharShape.of_utf8 [v / 64, v] hunits (by simp; omega)
      (by simp [Source.lineEnd]; omega)⟩
  · exact ⟨_, CharShape.of_utf8 [v / 4096, v / 64, v] hunits (by simp; omega)
      (by simp [Source.lineEnd]; omega)⟩

/-- In UTF-16 a character has one unit that begins it, and perhaps one that continues it. -/
theorem utf16_charShape {encoding : Encoding} (h : encoding ≠ .utf8) (c : Char) :
    ∃ first rest, CharShape encoding c first rest := by
  have hunits : encoding.charUnits c = utf16Units c := by
    cases encoding with
    | utf8 => exact absurd rfl h
    | utf16LE => rfl
    | utf16BE => rfl
  have hstarts : ∀ unit, encoding.startsCharacter unit = !(0xDC00 ≤ unit && unit < 0xE000) := by
    cases encoding with
    | utf8 => exact absurd rfl h
    | utf16LE => exact fun _ => rfl
    | utf16BE => exact fun _ => rfl
  have hcount : encoding.unitCount = 0x10000 := by
    cases encoding with
    | utf8 => exact absurd rfl h
    | utf16LE => rfl
    | utf16BE => rfl
  have hlineEnd : c.toNat = Source.lineEnd → c = '\n' := fun h => Char.toNat_inj.mp h
  have hvalid : c.toNat < 0xD800 ∨ 0xDFFF < c.toNat ∧ c.toNat < 0x110000 := c.valid
  simp only [utf16Units] at hunits
  generalize c.toNat = v at hunits hlineEnd hvalid
  split_ifs at hunits with hsmall
  · refine ⟨_, _, hunits, ?_, ?_, hlineEnd, ?_, ?_⟩
    · simp [hstarts]
      omega
    · rwa [hcount]
    · simp
    · simp
  · refine ⟨_, _, hunits, ?_, ?_, ?_, ?_, ?_⟩
    · simp [hstarts]
      omega
    · rw [hcount]
      omega
    · simp [Source.lineEnd]
      omega
    · simp [hstarts]
      omega
    · simp [hcount]
      omega

/-- Every character has this shape in every encoding. -/
theorem charShape (encoding : Encoding) (c : Char) :
    ∃ first rest, CharShape encoding c first rest := by
  by_cases h : encoding = .utf8
  · rw [h]
    exact utf8_charShape c
  · exact utf16_charShape h c

/-- Every unit of a character fits into the width of units. -/
theorem charUnits_lt (encoding : Encoding) (c : Char) :
    ∀ unit ∈ encoding.charUnits c, unit < encoding.unitCount := by
  obtain ⟨first, rest, h⟩ := encoding.charShape c
  intro unit hunit
  rw [h.units_eq] at hunit
  rcases List.mem_cons.mp hunit with rfl | hunit
  · exact h.first_lt
  · exact h.rest_lt unit hunit

/-- Exactly one unit of a character starts a character. -/
theorem length_filter_charUnits (encoding : Encoding) (c : Char) :
    ((encoding.charUnits c).filter encoding.startsCharacter).length = 1 := by
  obtain ⟨first, rest, h⟩ := encoding.charShape c
  have hrest : rest.filter encoding.startsCharacter = [] := by
    rw [List.filter_eq_nil_iff]
    intro unit hunit
    simp [h.rest_continues unit hunit]
  rw [h.units_eq, List.filter_cons_of_pos h.first_starts, hrest]
  rfl

/-- The unit of a line end occurs in a line end, once, and in no other character. -/
theorem count_lineEnd_charUnits (encoding : Encoding) (c : Char) :
    (encoding.charUnits c).count Source.lineEnd = if c = '\n' then 1 else 0 := by
  split
  · next h =>
    rw [h]
    cases encoding <;> decide
  · next hne =>
    obtain ⟨first, rest, h⟩ := encoding.charShape c
    have hstarts : encoding.startsCharacter Source.lineEnd = true := by
      cases encoding <;> decide
    rw [List.count_eq_zero, h.units_eq]
    intro hmem
    rcases List.mem_cons.mp hmem with hfirst | hrest
    · exact hne (h.first_lineEnd hfirst.symm)
    · simp [h.rest_continues _ hrest] at hstarts

/-! ## The units of a text -/

theorem textUnits_append (encoding : Encoding) (left right : List Char) :
    encoding.textUnits (left ++ right) = encoding.textUnits left ++ encoding.textUnits right :=
  List.flatMap_append

theorem textUnits_cons (encoding : Encoding) (c : Char) (rest : List Char) :
    encoding.textUnits (c :: rest) = encoding.charUnits c ++ encoding.textUnits rest :=
  List.flatMap_cons

theorem textUnits_lt (encoding : Encoding) (text : List Char) :
    ∀ unit ∈ encoding.textUnits text, unit < encoding.unitCount := by
  intro unit hunit
  obtain ⟨c, -, hc⟩ := List.mem_flatMap.mp hunit
  exact encoding.charUnits_lt c unit hc

/-- The units that start a character are as many as the characters. -/
theorem length_filter_textUnits (encoding : Encoding) (text : List Char) :
    ((encoding.textUnits text).filter encoding.startsCharacter).length = text.length := by
  induction text with
  | nil => rfl
  | cons c rest ih =>
    rw [textUnits_cons, List.filter_append, List.length_append, length_filter_charUnits, ih,
      List.length_cons, Nat.add_comm]

/-- The line ends among the units are as many as among the characters. -/
theorem count_lineEnd_textUnits (encoding : Encoding) (text : List Char) :
    (encoding.textUnits text).count Source.lineEnd = text.count '\n' := by
  induction text with
  | nil => rfl
  | cons c rest ih =>
    rw [textUnits_cons, List.count_append, count_lineEnd_charUnits, ih, List.count_cons,
      Nat.add_comm]
    simp

/-- Reading the bytes of units gives the units back. -/
theorem units_flatMap_unitBytes (encoding : Encoding) {units : List Nat}
    (h : ∀ unit ∈ units, unit < encoding.unitCount) :
    encoding.units (units.flatMap encoding.unitBytes) = units := by
  induction units with
  | nil => simp
  | cons unit rest ih =>
    have hunit := h unit (by simp)
    have hrest := ih fun other hother => h other (by simp [hother])
    rw [List.flatMap_cons]
    cases encoding with
    | utf8 =>
      simp only [unitCount, unitWidth] at hunit
      simp [units] at hrest
      simp [unitBytes, units, hrest]
      omega
    | utf16LE =>
      simp only [unitCount, unitWidth] at hunit
      simp [unitBytes, units, hrest]
      omega
    | utf16BE =>
      simp only [unitCount, unitWidth] at hunit
      simp [unitBytes, units, hrest]
      omega

/-- Units take up as many bytes as they are wide. -/
theorem length_flatMap_unitBytes (encoding : Encoding) (units : List Nat) :
    (units.flatMap encoding.unitBytes).length = encoding.unitWidth * units.length := by
  induction units with
  | nil => simp
  | cons unit rest ih =>
    rw [List.flatMap_cons, List.length_append, ih, List.length_cons, Nat.mul_succ, Nat.add_comm]
    cases encoding <;> rfl

/-- The units behind the last line end are those of the characters behind it. -/
theorem rtakeWhile_textUnits (encoding : Encoding) (text : List Char) :
    (encoding.textUnits text).rtakeWhile (· ≠ Source.lineEnd) =
      encoding.textUnits (text.rtakeWhile (· ≠ '\n')) := by
  induction text using List.reverseRecOn with
  | nil => rfl
  | append_singleton text c ih =>
    have hchar : encoding.textUnits [c] = encoding.charUnits c := by simp [textUnits]
    rw [textUnits_append, hchar]
    by_cases h : c = '\n'
    · have hunits : encoding.charUnits c = [Source.lineEnd] := by
        rw [h]
        cases encoding <;> decide
      rw [hunits, List.rtakeWhile_concat_neg _ _ _ (by simp),
        List.rtakeWhile_concat_neg _ _ _ (by simp [h])]
      rfl
    · have hunits : ∀ unit ∈ (encoding.charUnits c).reverse, (unit ≠ Source.lineEnd : Bool) := by
        intro unit hunit
        have hcount := encoding.count_lineEnd_charUnits c
        rw [if_neg h, List.count_eq_zero] at hcount
        have hne : unit ≠ Source.lineEnd := by
          rintro rfl
          exact hcount (List.mem_reverse.mp hunit)
        simpa using hne
      rw [List.rtakeWhile_concat_pos _ _ _ (by simpa using h), textUnits_append, hchar, ← ih]
      simp only [List.rtakeWhile, List.reverse_append]
      rw [List.takeWhile_append_of_pos hunits, List.reverse_append, List.reverse_reverse]

/-- An encoded text takes up the bytes of its units. -/
theorem size_encode (encoding : Encoding) (text : String) :
    (encoding.encode text).size = encoding.unitWidth * (encoding.textUnits text.toList).length := by
  rw [encode, List.size_toArray, length_flatMap_unitBytes]

theorem toList_encode_append (encoding : Encoding) (left right : String) :
    (encoding.encode (left ++ right)).toList =
      (encoding.encode left).toList ++ (encoding.encode right).toList := by
  simp only [encode, String.toList_append, textUnits_append, List.flatMap_append]

end Encoding

/-! ## Locations in a text -/

namespace Source

variable {encoding : Encoding} {before behind : String}

/-- The characters of a text behind its last line end. -/
def lastLine (text : String) : List Char :=
  text.toList.rtakeWhile (· ≠ '\n')

/-- A text as a source. -/
def ofText (encoding : Encoding) (text : String) : Source :=
  ⟨encoding.encode text, encoding⟩

/-- The place behind a part of a text is usable. -/
theorem usable_ofText (encoding : Encoding) (before behind : String) :
    (ofText encoding (before ++ behind)).Usable (encoding.encode before).size := by
  refine ⟨?_, ?_⟩
  · show (encoding.encode before).size ≤ (encoding.encode (before ++ behind)).size
    rw [← Array.length_toList, ← Array.length_toList, encoding.toList_encode_append,
      List.length_append]
    omega
  · show (encoding.encode before).size % encoding.unitWidth = 0
    rw [encoding.size_encode]
    exact Nat.mul_mod_right _ _

/-- The units up to a place in a text are those of the text before it. -/
theorem units_ofText (encoding : Encoding) (before behind : String) :
    (ofText encoding (before ++ behind)).units 0 (encoding.encode before).size =
      encoding.textUnits before.toList := by
  have hslice : (ofText encoding (before ++ behind)).slice 0 (encoding.encode before).size =
      (encoding.encode before).toList := by
    rw [slice_eq_drop_take, List.drop_zero]
    show (encoding.encode (before ++ behind)).toList.take _ = _
    rw [encoding.toList_encode_append, List.take_append_of_le_length (by simp),
      List.take_of_length_le (by simp)]
  unfold units
  rw [hslice]
  exact encoding.units_flatMap_unitBytes (encoding.textUnits_lt _)

/-- The units on the line of a place in a text are those of the last line before it. -/
theorem units_lineStart_ofText (encoding : Encoding) (before behind : String) :
    (ofText encoding (before ++ behind)).units
        ((ofText encoding (before ++ behind)).lineStart (encoding.encode before).size)
        (encoding.encode before).size =
      encoding.textUnits (lastLine before) := by
  obtain ⟨-, -, -, hline⟩ := lineStart_cut (usable_ofText encoding before behind)
  rw [hline, units_ofText, Encoding.rtakeWhile_textUnits]
  rfl

/-- The location of a place in a text. -/
theorem locate_ofText (encoding : Encoding) (unit : ColumnUnit) (before behind field : String) :
    (ofText encoding (before ++ behind)).locate unit field (encoding.encode before).size =
      .ok (Location.ofCounts (before.toList.count '\n')
        (unit.count encoding ((ofText encoding (before ++ behind)).slice
          ((ofText encoding (before ++ behind)).lineStart (encoding.encode before).size)
          (encoding.encode before).size))) := by
  have hcheck := (check_eq_ok_iff _ field _).mpr (usable_ofText encoding before behind)
  simp only [locate, hcheck, units_ofText, Encoding.count_lineEnd_textUnits]
  rfl

/-- A place in a text has at least as many units before it as line ends, and as the last line
before it has characters and units. -/
theorem counts_le_size (encoding : Encoding) (before behind : String) :
    before.toList.count '\n' ≤ (encoding.encode (before ++ behind)).size ∧
      (lastLine before).length ≤ (encoding.encode (before ++ behind)).size ∧
      (encoding.textUnits (lastLine before)).length ≤
        (encoding.encode (before ++ behind)).size := by
  have hunits : (encoding.textUnits before.toList).length ≤
      (encoding.encode (before ++ behind)).size := calc
    _ ≤ encoding.unitWidth * (encoding.textUnits before.toList).length :=
      Nat.le_mul_of_pos_left _ encoding.unitWidth_pos
    _ = (encoding.encode before).size := (encoding.size_encode before).symm
    _ ≤ (encoding.encode (before ++ behind)).size := (usable_ofText encoding before behind).1
  have hline : (encoding.textUnits (lastLine before)).length ≤
      (encoding.textUnits before.toList).length := by
    rw [lastLine, ← Encoding.rtakeWhile_textUnits]
    exact (List.rtakeWhile_suffix _ _).length_le
  have hlineEnds : (encoding.textUnits before.toList).count Source.lineEnd ≤ _ :=
    List.count_le_length
  rw [Encoding.count_lineEnd_textUnits] at hlineEnds
  have hcharacters := List.length_filter_le encoding.startsCharacter
    (encoding.textUnits (lastLine before))
  rw [Encoding.length_filter_textUnits] at hcharacters
  omega

end Source

/-- Counts below the largest number are not cut. -/
theorem Location.toNat_ofCounts {lines columns : Nat} (hlines : lines < 2 ^ 32 - 1)
    (hcolumns : columns < 2 ^ 32 - 1) :
    (ofCounts lines columns).line.toNat = 1 + lines ∧
      (ofCounts lines columns).column.toNat = 1 + columns := by
  simp only [ofCounts, UInt32.toNat_ofNat', UInt32.size]
  omega

namespace Cursor

/-- The place behind `before` in the text `before ++ behind`, located by a cursor that was asked
`queries` before. -/
def locateIn (encoding : Encoding) (unit : ColumnUnit) (queries : List Query)
    (field before behind : String) : Except Failure Location :=
  let source := Source.ofText encoding (before ++ behind)
  ((afterAll source unit queries).locate source unit field (encoding.encode before).size).1

/-- Lines and code-point columns are counted in characters. -/
theorem locateIn_codePoint (encoding : Encoding) (queries : List Query)
    (field before behind : String) :
    locateIn encoding .codePoint queries field before behind =
      .ok (Location.ofCounts (before.toList.count '\n') (Source.lastLine before).length) := by
  have hlocate := Source.locate_ofText encoding .codePoint before behind field
  have hcolumns := encoding.length_filter_textUnits (Source.lastLine before)
  rw [← Source.units_lineStart_ofText encoding before behind] at hcolumns
  rw [locateIn, fst_locate_afterAll, hlocate, ← hcolumns]
  rfl

/-- Lines are counted in characters and code-unit columns in units. -/
theorem locateIn_codeUnit (encoding : Encoding) (queries : List Query)
    (field before behind : String) :
    locateIn encoding .codeUnit queries field before behind =
      .ok (Location.ofCounts (before.toList.count '\n')
        (encoding.textUnits (Source.lastLine before)).length) := by
  rw [locateIn, fst_locate_afterAll,
    Source.locate_ofText encoding .codeUnit before behind field,
    ← Source.units_lineStart_ofText encoding before behind]
  rfl

/-- A place in a text has the line and the code-point column that are counted in characters,
whatever the encoding; and its code-unit column in UTF-16 is counted in the units of its line,
whatever the byte order. -/
theorem locateIn_text (before behind field : String) (queries queries' : List Query) :
    (∀ encoding : Encoding, (encoding.encode (before ++ behind)).size < 2 ^ 32 - 1 →
      ∃ location, locateIn encoding .codePoint queries field before behind = .ok location ∧
        location.line.toNat = 1 + before.toList.count '\n' ∧
        location.column.toNat = 1 + (Source.lastLine before).length) ∧
    (∀ encoding encoding' : Encoding,
      locateIn encoding .codePoint queries field before behind =
        locateIn encoding' .codePoint queries' field before behind) ∧
    (∀ encoding : Encoding, encoding = .utf16LE ∨ encoding = .utf16BE →
      (encoding.encode (before ++ behind)).size < 2 ^ 32 - 1 →
      ∃ location, locateIn encoding .codeUnit queries field before behind = .ok location ∧
        location.line.toNat = 1 + before.toList.count '\n' ∧
        location.column.toNat =
          1 + ((Source.lastLine before).flatMap Encoding.utf16Units).length) ∧
    locateIn .utf16LE .codeUnit queries field before behind =
      locateIn .utf16BE .codeUnit queries' field before behind := by
  refine ⟨?_, ?_, ?_, ?_⟩
  · intro encoding hsize
    obtain ⟨hlines, hcolumns, -⟩ := Source.counts_le_size encoding before behind
    exact ⟨_, locateIn_codePoint encoding queries field before behind,
      Location.toNat_ofCounts (by omega) (by omega)⟩
  · intro encoding encoding'
    rw [locateIn_codePoint, locateIn_codePoint]
  · intro encoding hencoding hsize
    obtain ⟨hlines, -, hcolumns⟩ := Source.counts_le_size encoding before behind
    have hunits : encoding.textUnits (Source.lastLine before) =
        (Source.lastLine before).flatMap Encoding.utf16Units := by
      rcases hencoding with rfl | rfl <;> rfl
    rw [← hunits]
    exact ⟨_, locateIn_codeUnit encoding queries field before behind,
      Location.toNat_ofCounts (by omega) (by omega)⟩
  · rw [locateIn_codeUnit, locateIn_codeUnit]
    rfl

/-- Behind a surrogate pair the two columns differ. -/
theorem locateIn_text_surrogates :
    (Encoding.utf16BE.encode ("é\n😀a" ++ "b")).size < 2 ^ 32 - 1 ∧
    (∃ location, locateIn .utf16BE .codePoint [.locate "end" 2] "start" "é\n😀a" "b" =
        .ok location ∧ location.line.toNat = 2 ∧ location.column.toNat = 3) ∧
    ∃ location, locateIn .utf16BE .codeUnit [.locate "end" 2] "start" "é\n😀a" "b" =
        .ok location ∧ location.line.toNat = 2 ∧ location.column.toNat = 4 := by
  have hsize : (Encoding.utf16BE.encode ("é\n😀a" ++ "b")).size < 2 ^ 32 - 1 := by decide +kernel
  have h := locateIn_text "é\n😀a" "b" "start" [.locate "end" 2] []
  exact ⟨hsize, h.1 .utf16BE hsize, h.2.2.1 .utf16BE (Or.inr rfl) hsize⟩

end Cursor

end CanonicalTree
