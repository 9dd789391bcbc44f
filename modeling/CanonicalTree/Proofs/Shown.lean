import CanonicalTree.Schema.Shown
import Mathlib.Data.List.Basic

/-!
# What shown settings tell

Settings are shown in texts that say where they end: behind a quoted string, a list or an optional
value anything may follow, and both the value and what follows it can be read off
(`SelfDelimiting`). This carries over from characters to strings, from strings to lists, and from
the fields of a record to the record. So two schemas are shown alike exactly if they agree on the
names of their special fields and on the names of their repairs (`Schema.shown_eq_iff`).
-/

namespace CanonicalTree.Text

/-! ## Texts that say where they end -/

/-- What is written for a value ends where the value ends, whatever follows. -/
def SelfDelimiting {α : Type} (write : α → List Char) : Prop :=
  ∀ ⦃a b : α⦄ ⦃r r' : List Char⦄, write a ++ r = write b ++ r' → a = b ∧ r = r'

variable {α : Type} {write : α → List Char}

/-- Two values with text behind them are written alike only if they are the same values with the
same text behind them. -/
theorem SelfDelimiting.append_inj (h : SelfDelimiting write) {a b : α} {r r' : List Char} :
    write a ++ r = write b ++ r' ↔ a = b ∧ r = r' :=
  ⟨fun heq => h heq, fun ⟨ha, hr⟩ => by rw [ha, hr]⟩

/-- Different values are written differently. -/
theorem SelfDelimiting.injective (h : SelfDelimiting write) : Function.Injective write :=
  fun _ _ heq => (h (congrArg (· ++ []) heq)).1

/-- A row of values says where it ends if the values do and none begins with what ends the row. -/
theorem SelfDelimiting.row (h : SelfDelimiting write) {stop : Char}
    (hstop : ∀ a, ∃ c rest, write a = c :: rest ∧ c ≠ stop) :
    SelfDelimiting fun items : List α => items.flatMap write ++ [stop] := by
  intro items others r r' heq
  simp only [List.append_assoc, List.singleton_append] at heq
  induction items generalizing others with
  | nil =>
    cases others with
    | nil => exact ⟨rfl, (List.cons.inj heq).2⟩
    | cons b others =>
      obtain ⟨c, rest, hb, hne⟩ := hstop b
      rw [List.flatMap_cons, hb] at heq
      exact absurd (List.cons.inj heq).1.symm hne
  | cons a items ih =>
    cases others with
    | nil =>
      obtain ⟨c, rest, ha, hne⟩ := hstop a
      rw [List.flatMap_cons, ha] at heq
      exact absurd (List.cons.inj heq).1 hne
    | cons b others =>
      rw [List.flatMap_cons, List.flatMap_cons, List.append_assoc, List.append_assoc] at heq
      obtain ⟨hab, hrest⟩ := h heq
      obtain ⟨hitems, hr⟩ := ih hrest
      exact ⟨by rw [hab, hitems], hr⟩

/-! ## Characters by their code -/

/-- The value of a digit of a code. -/
def digitValue (c : Char) : Nat :=
  if c.isDigit then c.toNat - '0'.toNat else c.toNat - 'a'.toNat + 10

/-- The code that digits stand for. -/
def codeOf (digits : List Char) : Nat :=
  digits.foldl (fun code c => 16 * code + digitValue c) 0

/-- The digits of a code stand for it. -/
theorem codeOf_toDigits (n : Nat) : codeOf (Nat.toDigits 16 n) = n := by
  have hvalue : ∀ m < 16, digitValue m.digitChar = m := by decide
  induction n using Nat.strongRecOn with
  | ind n ih =>
    rcases Nat.lt_or_ge n 16 with hlt | hge
    · rw [Nat.toDigits_of_lt_base hlt]
      simp [codeOf, hvalue n hlt]
    · have hfront := ih (n / 16) (Nat.div_lt_self (by omega) (by decide))
      have hlast := hvalue (n % 16) (Nat.mod_lt n (by decide))
      rw [codeOf] at hfront
      rw [Nat.toDigits_of_base_le (by decide) hge, codeOf, List.foldl_append, hfront,
        List.foldl_cons, List.foldl_nil, hlast, Nat.div_add_mod]

/-- A code is known by its digits. -/
theorem toDigits_injective : Function.Injective (Nat.toDigits 16) :=
  Function.LeftInverse.injective codeOf_toDigits

/-- No digit of a code is the brace behind the code. -/
theorem brace_notMem_toDigits (n : Nat) : '\x7d' ∉ Nat.toDigits 16 n := by
  have hdigit : ∀ m < 16, '\x7d' ≠ m.digitChar := by decide
  induction n using Nat.strongRecOn with
  | ind n ih =>
    rcases Nat.lt_or_ge n 16 with hlt | hge
    · rw [Nat.toDigits_of_lt_base hlt, List.mem_singleton]
      exact hdigit n hlt
    · rw [Nat.toDigits_of_base_le (by decide) hge, List.mem_append, not_or, List.mem_singleton]
      exact ⟨ih (n / 16) (Nat.div_lt_self (by omega) (by decide)),
        hdigit (n % 16) (Nat.mod_lt n (by decide))⟩

/-- Nothing stands in front of a first brace that is no brace. -/
theorem eq_nil_of_brace {more r r' : List Char} (h : '\x7d' ∉ more)
    (heq : '\x7d' :: r = more ++ '\x7d' :: r') : more = [] := by
  cases more with
  | nil => rfl
  | cons c more =>
    rw [← (List.cons.inj heq).1] at h
    exact absurd List.mem_cons_self h

/-- Digits with a brace behind them can be read off, and so can what stands behind the brace. -/
theorem append_brace_inj {digits digits' r r' : List Char} (h : '\x7d' ∉ digits)
    (h' : '\x7d' ∉ digits') (heq : digits ++ '\x7d' :: r = digits' ++ '\x7d' :: r') :
    digits = digits' ∧ r = r' := by
  have hdigits : digits = digits' := by
    rcases List.append_eq_append_iff.mp heq with ⟨more, rfl, hmore⟩ | ⟨more, rfl, hmore⟩
    · rw [eq_nil_of_brace (fun hmem => h' (List.mem_append_right digits hmem)) hmore,
        List.append_nil]
    · rw [eq_nil_of_brace (fun hmem => h (List.mem_append_right digits' hmem)) hmore,
        List.append_nil]
  rw [hdigits] at heq
  exact ⟨hdigits, (List.cons.inj (List.append_cancel_left heq)).2⟩

/-! ## Quoted characters and strings -/

/-- The character that a letter behind a backslash stands for. -/
def meaning (letter : Char) : Char :=
  if letter = '0' then '\x00' else if letter = 't' then '\t' else if letter = 'n' then '\n'
  else if letter = 'r' then '\r' else letter

/-- A character inside quotes is written by a letter behind a backslash, by itself, or by its
code. -/
theorem quoteChar_cases (c : Char) :
    (∃ letter, quoteChar c = ['\\', letter] ∧ letter ≠ 'u' ∧ meaning letter = c) ∨
      (quoteChar c = [c] ∧ c ≠ '\\' ∧ c ≠ '"') ∨
      quoteChar c = ['\\', 'u', '\x7b'] ++ Nat.toDigits 16 c.toNat ++ ['\x7d'] := by
  have hcode : ∀ d : Char, c.toNat = d.toNat → d = c := fun d h => (Char.toNat_inj.mp h).symm
  unfold quoteChar
  split_ifs with hquote hslash hnul htab hfeed hreturn hmarked
  · exact .inl ⟨'"', rfl, by decide, hquote.symm⟩
  · exact .inl ⟨'\\', rfl, by decide, hslash.symm⟩
  · exact .inl ⟨'0', rfl, by decide, hcode '\x00' hnul⟩
  · exact .inl ⟨'t', rfl, by decide, hcode '\t' htab⟩
  · exact .inl ⟨'n', rfl, by decide, hcode '\n' hfeed⟩
  · exact .inl ⟨'r', rfl, by decide, hcode '\r' hreturn⟩
  · exact .inr (.inl ⟨rfl, hslash, hquote⟩)
  · exact .inr (.inr rfl)

/-- A character inside quotes says where it ends. -/
theorem selfDelimiting_quoteChar : SelfDelimiting quoteChar := by
  intro c d r r' heq
  -- Characters that are written in different forms differ in the first or in the second place.
  rcases quoteChar_cases c with ⟨letter, hc, hu, rfl⟩ | ⟨hc, hslash, -⟩ | hc
  · rcases quoteChar_cases d with ⟨letter', hd, -, rfl⟩ | ⟨hd, hslash, -⟩ | hd
    · rw [hc, hd] at heq
      injection heq with _ heq
      injection heq with hletter hr
      exact ⟨congrArg meaning hletter, hr⟩
    · rw [hc, hd] at heq
      exact absurd (List.cons.inj heq).1.symm hslash
    · rw [hc, hd] at heq
      injection heq with _ heq
      exact absurd (List.cons.inj heq).1 hu
  · rcases quoteChar_cases d with ⟨letter', hd, -, rfl⟩ | ⟨hd, -, -⟩ | hd
    · rw [hc, hd] at heq
      exact absurd (List.cons.inj heq).1 hslash
    · rw [hc, hd] at heq
      exact List.cons.inj heq
    · rw [hc, hd] at heq
      exact absurd (List.cons.inj heq).1 hslash
  · rcases quoteChar_cases d with ⟨letter', hd, hu, rfl⟩ | ⟨hd, hslash, -⟩ | hd
    · rw [hc, hd] at heq
      injection heq with _ heq
      exact absurd (List.cons.inj heq).1.symm hu
    · rw [hc, hd] at heq
      exact absurd (List.cons.inj heq).1.symm hslash
    · rw [hc, hd] at heq
      simp only [List.append_assoc, List.append_cancel_left_eq, List.singleton_append] at heq
      obtain ⟨hdigits, hr⟩ := append_brace_inj (brace_notMem_toDigits c.toNat)
        (brace_notMem_toDigits d.toNat) heq
      exact ⟨Char.toNat_inj.mp (toDigits_injective hdigits), hr⟩

/-- No character inside quotes begins with a quote. -/
theorem exists_quoteChar_eq_cons (c : Char) :
    ∃ first rest, quoteChar c = first :: rest ∧ first ≠ '"' := by
  rcases quoteChar_cases c with ⟨letter, hc, -⟩ | ⟨hc, -, hquote⟩ | hc
  · exact ⟨'\\', [letter], hc, by decide⟩
  · exact ⟨c, [], hc, hquote⟩
  · exact ⟨'\\', _, hc, by decide⟩

/-- The characters of a quoted string. -/
theorem toList_quoted (s : String) :
    (quoted s).toList = '"' :: (s.toList.flatMap quoteChar ++ ['"']) := by
  simp [quoted]

/-- A quoted string says where it ends. -/
theorem selfDelimiting_quoted : SelfDelimiting fun s : String => (quoted s).toList := by
  intro s t r r' heq
  simp only [toList_quoted, List.cons_append, List.cons.injEq, true_and] at heq
  obtain ⟨hchars, hr⟩ := selfDelimiting_quoteChar.row exists_quoteChar_eq_cons heq
  exact ⟨String.toList_inj.mp hchars, hr⟩

/-! ## Optional values and lists -/

/-- A shown optional value says where it ends. -/
theorem selfDelimiting_optional : SelfDelimiting fun value => (optional value).toList := by
  intro value other r r' heq
  cases value with
  | none =>
    cases other with
    | none => exact ⟨rfl, List.append_cancel_left heq⟩
    | some t => simp [optional] at heq
  | some s =>
    cases other with
    | none => simp [optional] at heq
    | some t =>
      simp only [optional, String.toList_append, List.append_assoc,
        List.append_cancel_left_eq] at heq
      obtain ⟨hst, hr⟩ := selfDelimiting_quoted heq
      exact ⟨congrArg some hst, List.append_cancel_left hr⟩

/-- The characters of a list with at least one item. -/
theorem toList_list_cons (first : String) (others : List String) :
    (list (first :: others)).toList = '[' :: ((quoted first).toList ++
      ((others.flatMap fun s => [',', ' '] ++ (quoted s).toList) ++ [']'])) := by
  have hopen : "[".toList = ['['] := rfl
  have hcomma : ", ".toList = [',', ' '] := rfl
  have hclose : "]".toList = [']'] := rfl
  have hitems : (String.intercalate ", " ((first :: others).map quoted)).toList =
      (quoted first).toList ++ others.flatMap fun s => [',', ' '] ++ (quoted s).toList := by
    induction others generalizing first with
    | nil =>
      rw [List.map_singleton, String.intercalate_singleton, List.flatMap_nil, List.append_nil]
    | cons second others ih =>
      rw [List.map_cons, List.map_cons, String.intercalate_cons_cons, ← List.map_cons,
        String.toList_append, String.toList_append, ih, hcomma, List.flatMap_cons,
        List.append_assoc, List.append_assoc]
  rw [list, String.toList_append, String.toList_append, hitems, hopen, hclose,
    List.singleton_append, List.cons_append, List.append_assoc]

/-- A shown list says where it ends. -/
theorem selfDelimiting_list : SelfDelimiting fun items => (list items).toList := by
  have hitem : SelfDelimiting fun s : String => [',', ' '] ++ (quoted s).toList :=
    fun s t r r' heq => selfDelimiting_quoted (List.append_cancel_left
      (by simpa only [List.append_assoc] using heq))
  intro items others r r' heq
  cases items with
  | nil =>
    cases others with
    | nil => exact ⟨rfl, List.append_cancel_left heq⟩
    | cons t others => simp [list, toList_quoted] at heq
  | cons s items =>
    cases others with
    | nil => simp [list, toList_quoted] at heq
    | cons t others =>
      simp only [toList_list_cons, List.cons_append, List.append_assoc (quoted _).toList] at heq
      obtain ⟨hst, hothers⟩ := selfDelimiting_quoted (List.cons.inj heq).2
      obtain ⟨hitems, hr⟩ := hitem.row (fun s => ⟨',', _, rfl, by decide⟩) hothers
      exact ⟨by rw [hst, hitems], hr⟩

/-! ## Values with text behind them -/

/-- A quoted string and what follows it can be read off. -/
@[simp]
theorem quoted_append_inj {s t : String} {r r' : List Char} :
    (quoted s).toList ++ r = (quoted t).toList ++ r' ↔ s = t ∧ r = r' :=
  selfDelimiting_quoted.append_inj

/-- A shown optional value and what follows it can be read off. -/
@[simp]
theorem optional_append_inj {value other : Option String} {r r' : List Char} :
    (optional value).toList ++ r = (optional other).toList ++ r' ↔ value = other ∧ r = r' :=
  selfDelimiting_optional.append_inj

/-- A shown list and what follows it can be read off. -/
@[simp]
theorem list_append_inj {items others : List String} {r r' : List Char} :
    (list items).toList ++ r = (list others).toList ++ r' ↔ items = others ∧ r = r' :=
  selfDelimiting_list.append_inj

end CanonicalTree.Text

namespace CanonicalTree

/-! ## Schemas -/

/-- The shown names of special fields say where they end. -/
theorem Schema.Keys.selfDelimiting_shown :
    Text.SelfDelimiting fun keys : Schema.Keys => keys.shown.toList := by
  intro keys other r r' heq
  cases keys
  cases other
  simpa [shown, Text.record, String.intercalate_cons_cons, and_assoc] using heq

/-- Two schemas are shown alike exactly if they agree on the names of their special fields and on
the names of their repairs, in order. -/
theorem Schema.shown_eq_iff {schema other : Schema} :
    schema.shown = other.shown ↔ schema.keys = other.keys ∧
      schema.repairs.map Repair.name = other.repairs.map Repair.name := by
  have hkeys : ∀ {r r'}, schema.keys.shown.toList ++ r = other.keys.shown.toList ++ r' ↔
      schema.keys = other.keys ∧ r = r' := Schema.Keys.selfDelimiting_shown.append_inj
  have hnames : ∀ {names names'}, (Text.list names).toList = (Text.list names').toList ↔
      names = names' := Text.selfDelimiting_list.injective.eq_iff
  rw [← String.toList_inj]
  simp [shown, Repair.shownAll, Text.record, hkeys, hnames]

end CanonicalTree
