import CanonicalTree.Json.Printer
import CanonicalTree.Json.Reader
import CanonicalTree.Proofs.Numerals

/-!
# The lexemes of printed text

Printed strings and numbers are read as one lexeme each, whatever follows them. A string lexeme
ends with its closing quote; a number ends only where a byte follows that is no numeral, so what
is said about numbers asks this of the rest of the text (`Delimited`).
-/

namespace CanonicalTree.Json

/-- The bytes of a text. -/
def utf8 (text : List Char) : List UInt8 :=
  text.flatMap String.utf8EncodeChar

@[simp] theorem utf8_nil : utf8 [] = [] := rfl

@[simp] theorem utf8_cons (c : Char) (rest : List Char) :
    utf8 (c :: rest) = String.utf8EncodeChar c ++ utf8 rest := rfl

@[simp] theorem utf8_append (left right : List Char) :
    utf8 (left ++ right) = utf8 left ++ utf8 right :=
  List.flatMap_append

/-- The bytes of a text are those of its characters, in order. -/
theorem data_toUTF8 (text : String) : text.toUTF8.data = (utf8 text.toList).toArray := by
  rw [String.toUTF8_eq_toByteArray, ← String.utf8Encode_toList, List.utf8Encode,
    List.data_toByteArray]
  rfl

/-! ## The pieces of a string -/

namespace Piece

/-- The pieces that a character is printed as: a code unit for a control character that has no
letter of its own, its bytes otherwise. -/
def ofChar (c : Char) : List Piece :=
  if c.toNat < 32 ∧ c.toNat ∉ [8, 9, 10, 12, 13] then [.unit c.toNat]
  else (String.utf8EncodeChar c).map .byte

/-- The pieces that a text is printed as. -/
def ofText (text : String) : List Piece :=
  text.toList.flatMap ofChar

theorem bytes?_unit {u : Nat} (hu : u < 32) (bytes : ByteArray) (rest : List Piece) :
    bytes? bytes (.unit u :: rest) = bytes? (pushChar bytes u) rest := by
  have hhigh : isHigh u = false := by
    simp [isHigh]
    omega
  have hlow : isLow u = false := by
    simp [isLow]
    omega
  cases rest with
  | nil => simp [bytes?, hhigh, hlow]
  | cons piece rest => cases piece <;> simp [bytes?, hhigh, hlow]

theorem bytes?_map_byte (bytes : ByteArray) (added : List UInt8) (rest : List Piece) :
    bytes? bytes (added.map .byte ++ rest) = bytes? (added.foldl ByteArray.push bytes) rest := by
  induction added generalizing bytes with
  | nil => rfl
  | cons b added ih => exact ih (bytes.push b)

theorem bytes?_ofChar (bytes : ByteArray) (c : Char) (rest : List Piece) :
    bytes? bytes (ofChar c ++ rest) =
      bytes? ((String.utf8EncodeChar c).foldl ByteArray.push bytes) rest := by
  rw [ofChar]
  split
  · rename_i h
    have hc : Char.ofNat c.toNat = c := Char.ofNat_toNat c
    rw [List.singleton_append, bytes?_unit h.1, pushChar, hc]
  · exact bytes?_map_byte bytes _ rest

/-- The pieces of characters add their bytes, in order. -/
theorem bytes?_flatMap_ofChar (bytes : ByteArray) (text : List Char) :
    bytes? bytes (text.flatMap ofChar) = some ((utf8 text).foldl ByteArray.push bytes) := by
  induction text generalizing bytes with
  | nil => rfl
  | cons c rest ih => rw [List.flatMap_cons, bytes?_ofChar, ih, utf8_cons, List.foldl_append]

theorem data_foldl_push (bytes : ByteArray) (added : List UInt8) :
    (added.foldl ByteArray.push bytes).data = bytes.data ++ added.toArray := by
  induction added generalizing bytes with
  | nil => simp
  | cons b added ih =>
    rw [List.foldl_cons, ih, ByteArray.data_push]
    simp

/-- A text is read from the pieces that it is printed as. -/
theorem text_ofText (text : String) : Piece.text (ofText text) = .ok text := by
  have hbytes : (utf8 text.toList).foldl ByteArray.push ByteArray.empty = text.toByteArray := by
    apply ByteArray.ext
    rw [data_foldl_push, ← String.toUTF8_eq_toByteArray, data_toUTF8]
    exact Array.empty_append
  have htext : String.fromUTF8? text.toByteArray = some text := by
    rw [String.fromUTF8?, dif_pos text.isValidUTF8]
    rfl
  rw [Piece.text, ofText, bytes?_flatMap_ofChar, Option.bind_some, hbytes, htext]

end Piece

namespace Token

/-! ## Scanning from the middle of a text -/

/-- The lexemes of a text of which the scanner has seen a part. -/
def scanFrom (scanner : Scanner) (bytes : List UInt8) : Option (List Token) :=
  (bytes.foldlM step? scanner).bind finish?

/-- Scanning a text begins between lexemes, with none found. -/
theorem scan?_eq_scanFrom (bytes : Bytes) : scan? bytes = scanFrom ⟨[], .between⟩ bytes.toList := by
  rw [scan?, scanFrom, Array.foldlM_toList]
  rfl

theorem scanFrom_cons {scanner : Scanner} {b : UInt8} {next : Scanner}
    (h : step? scanner b = some next) (rest : List UInt8) :
    scanFrom scanner (b :: rest) = scanFrom next rest := by
  rw [scanFrom, List.foldlM_cons, h]
  rfl

/-- No numeral comes next. -/
def Delimited (rest : List UInt8) : Prop :=
  ∀ b ∈ rest.head?, isNumeral b = false

variable (found : List Token) (rest : List UInt8)

/-! ## Strings -/

/-- The bytes that stand for themselves in a string. -/
def isPlain (b : UInt8) : Bool :=
  b != 0x22 && b != 0x5C && 0x20 ≤ b

/-- Inside a string plain bytes are read as they are. -/
theorem scanFrom_plain (read : List Piece) {bytes : List UInt8}
    (h : ∀ b ∈ bytes, isPlain b = true) :
    scanFrom ⟨found, .string read⟩ (bytes ++ rest) =
      scanFrom ⟨found, .string ((bytes.map .byte).reverse ++ read)⟩ rest := by
  induction bytes generalizing read with
  | nil => rfl
  | cons b bytes ih =>
    obtain ⟨hb, hbytes⟩ := List.forall_mem_cons.mp h
    have hstep : step? ⟨found, .string read⟩ b = some ⟨found, .string (.byte b :: read)⟩ := by
      simp [isPlain] at hb
      simp [step?, hb]
    rw [List.cons_append, scanFrom_cons hstep, ih _ hbytes]
    simp

theorem isPlain_iff {b : UInt8} :
    isPlain b = true ↔ b.toNat ≠ 0x22 ∧ b.toNat ≠ 0x5C ∧ 0x20 ≤ b.toNat := by
  simp [isPlain, ← UInt8.toNat_inj, UInt8.le_iff_toNat_le, and_assoc]

/-- All bytes of an unescaped character are plain. -/
theorem isPlain_of_mem_utf8EncodeChar {c : Char} (hquote : c ≠ '"') (hslash : c ≠ '\\')
    (hblank : 32 ≤ c.toNat) : ∀ b ∈ String.utf8EncodeChar c, isPlain b = true := by
  have hquote : c.toNat ≠ 0x22 := fun h => hquote (Char.toNat_inj.mp h)
  have hslash : c.toNat ≠ 0x5C := fun h => hslash (Char.toNat_inj.mp h)
  intro b hb
  rw [isPlain_iff]
  simp only [String.utf8EncodeChar, Char.toNat_val] at hb
  -- every byte of a longer character is at least 0x80
  split_ifs at hb
  all_goals
    simp only [List.mem_cons, List.not_mem_nil, or_false] at hb
    rcases hb with rfl | rfl | rfl | rfl <;> simp <;> omega

/-- A hexadecimal digit is one byte, which has its value. -/
theorem utf8EncodeChar_digitChar {d : Nat} (h : d < 16) :
    ∃ b, String.utf8EncodeChar (Nat.digitChar d) = [b] ∧ hexValue? b = some d := by
  have hall : ∀ d < 16, (String.utf8EncodeChar (Nat.digitChar d)).map hexValue? = [some d] := by
    decide
  obtain ⟨b, hb, hvalue⟩ := List.map_eq_singleton_iff.mp (hall d h)
  exact ⟨b, hb, hvalue⟩

/-- A hexadecimal digit of a code is read, with more to come. -/
theorem step?_hex (read : List Piece) {b : UInt8} {digit : Nat} (h : hexValue? b = some digit)
    (value due : Nat) :
    step? ⟨found, .hex read value (due + 2)⟩ b =
      some ⟨found, .hex read (value * 16 + digit) (due + 1)⟩ := by
  simp [step?, h]

theorem step?_lastHex (read : List Piece) {b : UInt8} {digit : Nat} (h : hexValue? b = some digit)
    (value : Nat) :
    step? ⟨found, .hex read value 1⟩ b =
      some ⟨found, .string (.unit (value * 16 + digit) :: read)⟩ := by
  simp [step?, h]

/-- A control that is written by its code is read as that code unit. -/
theorem scanFrom_unit (read : List Piece) {n : Nat} (h : n < 32) :
    scanFrom ⟨found, .string read⟩
        (utf8 ['\\', 'u', '0', '0', Nat.digitChar (n / 16), Nat.digitChar (n % 16)] ++ rest) =
      scanFrom ⟨found, .string (.unit n :: read)⟩ rest := by
  obtain ⟨high, hhigh, hhighValue⟩ := utf8EncodeChar_digitChar (show n / 16 < 16 by omega)
  obtain ⟨low, hlow, hlowValue⟩ := utf8EncodeChar_digitChar (show n % 16 < 16 by omega)
  have hbytes : utf8 ['\\', 'u', '0', '0', Nat.digitChar (n / 16), Nat.digitChar (n % 16)] =
      [0x5C, 0x75, 0x30, 0x30, high, low] := by
    simp only [utf8_cons, utf8_nil, hhigh, hlow]
    rfl
  have hn : n / 16 * 16 + n % 16 = n := by omega
  have hzero : hexValue? 0x30 = some 0 := rfl
  rw [hbytes]
  simp only [List.cons_append, List.nil_append]
  calc scanFrom ⟨found, .string read⟩ (0x5C :: 0x75 :: 0x30 :: 0x30 :: high :: low :: rest)
    _ = scanFrom ⟨found, .hex read 0 4⟩ (0x30 :: 0x30 :: high :: low :: rest) := rfl
    _ = scanFrom ⟨found, .hex read 0 2⟩ (high :: low :: rest) := rfl
    _ = scanFrom ⟨found, .hex read (n / 16) 1⟩ (low :: rest) := by
      rw [scanFrom_cons (step?_hex found read hhighValue 0 0)]
      simp
    _ = scanFrom ⟨found, .string (.unit n :: read)⟩ rest := by
      rw [scanFrom_cons (step?_lastHex found read hlowValue (n / 16)), hn]

/-- A character in a string is read from the way it is written, escaped or not. -/
theorem scanFrom_escapeChar (read : List Piece) (c : Char) :
    scanFrom ⟨found, .string read⟩ (utf8 (escapeChar c) ++ rest) =
      scanFrom ⟨found, .string ((Piece.ofChar c).reverse ++ read)⟩ rest := by
  have hchar : ∀ {n : Nat}, c.toNat = n → c = Char.ofNat n := by
    rintro n rfl
    exact (Char.ofNat_toNat c).symm
  rw [escapeChar]
  split_ifs with hquote hslash h8 h9 h10 h12 h13 hcontrol
  · rw [hquote]; rfl
  · rw [hslash]; rfl
  · rw [hchar h8]; rfl
  · rw [hchar h9]; rfl
  · rw [hchar h10]; rfl
  · rw [hchar h12]; rfl
  · rw [hchar h13]; rfl
  · have hpieces : Piece.ofChar c = [.unit c.toNat] := by
      rw [Piece.ofChar, if_pos ⟨hcontrol, by simp [h8, h9, h10, h12, h13]⟩]
    rw [scanFrom_unit found rest read hcontrol, hpieces]
    rfl
  · have hpieces : Piece.ofChar c = (String.utf8EncodeChar c).map .byte := by
      rw [Piece.ofChar, if_neg fun h => hcontrol h.1]
    have hplain := isPlain_of_mem_utf8EncodeChar hquote hslash (Nat.not_lt.mp hcontrol)
    rw [utf8_cons, utf8_nil, List.append_nil, scanFrom_plain found rest read hplain, hpieces]

/-- The characters of a string are read from the way they are written. -/
theorem scanFrom_escaped (read : List Piece) (text : List Char) :
    scanFrom ⟨found, .string read⟩ (utf8 (text.flatMap escapeChar) ++ rest) =
      scanFrom ⟨found, .string ((text.flatMap Piece.ofChar).reverse ++ read)⟩ rest := by
  induction text generalizing read with
  | nil => rfl
  | cons c text ih =>
    rw [List.flatMap_cons, utf8_append, List.append_assoc, scanFrom_escapeChar, ih]
    simp

/-- A string in quotes is one lexeme, whatever follows it. -/
theorem scanFrom_quote (text : String) :
    scanFrom ⟨found, .between⟩ (utf8 (quote text).toList ++ rest) =
      scanFrom ⟨.string (Piece.ofText text) :: found, .between⟩ rest := by
  have hbytes : utf8 (quote text).toList ++ rest =
      0x22 :: (utf8 (text.toList.flatMap escapeChar) ++ 0x22 :: rest) := by
    simp only [quote, String.toList_append, String.toList_ofList, utf8_append, List.append_assoc]
    rfl
  rw [hbytes]
  calc scanFrom ⟨found, .between⟩ (0x22 :: (utf8 (text.toList.flatMap escapeChar) ++ 0x22 :: rest))
    _ = scanFrom ⟨found, .string []⟩ (utf8 (text.toList.flatMap escapeChar) ++ 0x22 :: rest) := rfl
    _ = scanFrom ⟨found, .string (Piece.ofText text).reverse⟩ (0x22 :: rest) := by
      rw [scanFrom_escaped, List.append_nil]
      rfl
    _ = scanFrom ⟨.string (Piece.ofText text) :: found, .between⟩ rest := by
      refine scanFrom_cons ?_ rest
      simp [step?]

/-! ## Numbers -/

theorem utf8EncodeChar_numeral {c : Char} (h : Decimal.Literal.isNumeral c = true) :
    ∃ b, String.utf8EncodeChar c = [b] ∧ isNumeral b = true ∧ Char.ofUInt8 b = c := by
  have hlt : c.toNat < 128 := by
    simp only [Decimal.Literal.isNumeral, Bool.or_eq_true, decide_eq_true_eq] at h
    rcases h with ((((h | rfl) | rfl) | rfl) | rfl) | rfl
    · exact Nat.lt_of_le_of_lt (Char.isDigit_iff_toNat.mp h).2 (by decide)
    all_goals decide
  have hall : ∀ n < 128, Decimal.Literal.isNumeral (Char.ofNat n) = true →
      (String.utf8EncodeChar (Char.ofNat n)).map (fun b => (isNumeral b, Char.ofUInt8 b)) =
        [(true, Char.ofNat n)] := by
    decide
  have hc := hall c.toNat hlt
  rw [Char.ofNat_toNat] at hc
  obtain ⟨b, hb, hvalue⟩ := List.map_eq_singleton_iff.mp (hc h)
  obtain ⟨hnumeral, hchar⟩ := Prod.mk.inj hvalue
  exact ⟨b, hb, hnumeral, hchar⟩

theorem start?_numeral {b : UInt8} (h : isNumeral b = true) :
    start? found b = some ⟨found, .number [Char.ofUInt8 b]⟩ := by
  have hne : ∀ other, isNumeral other = false → (b == other) = false := by
    intro other hother
    rw [beq_eq_false_iff_ne]
    rintro rfl
    rw [h] at hother
    cases hother
  have hblank : isBlank b = false := by
    rw [isBlank, hne 0x20 rfl, hne 0x09 rfl, hne 0x0A rfl, hne 0x0D rfl]
    rfl
  simp [start?, h, hblank, hne 0x5B rfl, hne 0x5D rfl, hne 0x7B rfl, hne 0x7D rfl, hne 0x2C rfl,
    hne 0x3A rfl, hne 0x22 rfl, hne 0x6E rfl, hne 0x74 rfl, hne 0x66 rfl]

/-- Inside a number its characters are read as they are. -/
theorem scanFrom_numerals (read : List Char) {text : List Char}
    (h : ∀ c ∈ text, Decimal.Literal.isNumeral c = true) :
    scanFrom ⟨found, .number read⟩ (utf8 text ++ rest) =
      scanFrom ⟨found, .number (text.reverse ++ read)⟩ rest := by
  induction text generalizing read with
  | nil => rfl
  | cons c text ih =>
    obtain ⟨hc, htext⟩ := List.forall_mem_cons.mp h
    obtain ⟨b, hbytes, hb, rfl⟩ := utf8EncodeChar_numeral hc
    have hstep : step? ⟨found, .number read⟩ b =
        some ⟨found, .number (Char.ofUInt8 b :: read)⟩ := by
      simp [step?, hb]
    rw [utf8_cons, hbytes, List.append_assoc, List.singleton_append, scanFrom_cons hstep,
      ih _ htext]
    simp

/-- A number ends where no numeral follows. -/
theorem scanFrom_number_end {read : List Char} {literal : Decimal.Literal}
    (h : Decimal.Literal.parse? read.reverse = some literal) (hrest : Delimited rest) :
    scanFrom ⟨found, .number read⟩ rest = scanFrom ⟨.number literal :: found, .between⟩ rest := by
  have htoken : number? read = some (.number literal) := by rw [number?, h]; rfl
  cases rest with
  | nil =>
    simp [scanFrom, finish?, htoken]
  | cons b rest =>
    have hb : isNumeral b = false := hrest b rfl
    have hstep : step? ⟨found, .number read⟩ b = step? ⟨.number literal :: found, .between⟩ b := by
      simp [step?, hb, htoken]
    rw [scanFrom, scanFrom, List.foldlM_cons, List.foldlM_cons, hstep]

/-- A number is one lexeme if nothing follows that could be part of it. -/
theorem scanFrom_literal {text : List Char} {literal : Decimal.Literal}
    (h : Decimal.Literal.parse? text = some literal) (hrest : Delimited rest) :
    scanFrom ⟨found, .between⟩ (utf8 text ++ rest) =
      scanFrom ⟨.number literal :: found, .between⟩ rest := by
  obtain ⟨hne, hnumeral⟩ := Decimal.Literal.forall_isNumeral_of_parse? h
  cases text with
  | nil => exact absurd rfl hne
  | cons c text =>
    obtain ⟨hc, htext⟩ := List.forall_mem_cons.mp hnumeral
    obtain ⟨b, hbytes, hb, rfl⟩ := utf8EncodeChar_numeral hc
    have hstep : step? ⟨found, .between⟩ b = some ⟨found, .number [Char.ofUInt8 b]⟩ :=
      start?_numeral found hb
    have hread : Decimal.Literal.parse? (text.reverse ++ [Char.ofUInt8 b]).reverse =
        some literal := by
      simpa using h
    rw [utf8_cons, hbytes, List.append_assoc, List.singleton_append, scanFrom_cons hstep,
      scanFrom_numerals _ _ _ htext, scanFrom_number_end _ _ hread hrest]

end Token

end CanonicalTree.Json
