import TypedWire.Proofs.Text.Utf8
import TypedWire.Text.Quoted

/-! Texts between quotes are read back. A reader takes a literal piece by piece, each of which is a
    printable character or an escape, and stops at the first quote that is not escaped; behind the literal of
    a text it stands with the UTF-8 of that text, whatever follows. -/

namespace TypedWire.Quoted

/-! ### Reading -/

/-- The number that a hexadecimal digit stands for, small or capital. -/
def digit? (c : Char) : Option Nat := if c ≤ '~' then Hex.value? c.toUInt8 else none

/-- Puts bytes in front of those that are read. -/
def prepend (bytes : List UInt8) : Option (List UInt8 × List Char) → Option (List UInt8 × List Char) :=
  Option.map fun (more, rest) => (bytes ++ more, rest)

/-- Reads a literal from behind its first quote: its bytes, and what follows the quote that closes it. -/
def readBody? : List Char → Option (List UInt8 × List Char)
  | '"' :: rest => some ([], rest)
  | '\\' :: 'n' :: rest => prepend [0x0a] (readBody? rest)
  | '\\' :: 'r' :: rest => prepend [0x0d] (readBody? rest)
  | '\\' :: 't' :: rest => prepend [0x09] (readBody? rest)
  | '\\' :: '"' :: rest => prepend [0x22] (readBody? rest)
  | '\\' :: '\\' :: rest => prepend [0x5c] (readBody? rest)
  | '\\' :: high :: low :: rest =>
    match digit? high, digit? low with
    | some h, some l => prepend [UInt8.ofNat (16 * h + l)] (readBody? rest)
    | _, _ => none
  | '\\' :: _ => none
  | c :: rest => if ' ' ≤ c ∧ c ≤ '~' then prepend [c.toUInt8] (readBody? rest) else none
  | [] => none

/-- Reads a literal: its bytes, and what follows it. -/
def read? : List Char → Option (List UInt8 × List Char)
  | '"' :: rest => readBody? rest
  | _ => none

/-- The characters that are no part of an escape, where a backslash escapes the character behind it. -/
def unescaped : List Char → List Char
  | '\\' :: _ :: rest => unescaped rest
  | c :: rest => c :: unescaped rest
  | [] => []

/-- No quote and no backslash is there that is not escaped. -/
def Closed (body : List Char) : Prop := '"' ∉ unescaped body ∧ '\\' ∉ unescaped body

/-- The literal is printable ASCII, has no quote and no backslash inside that is not escaped, and is read
    back as the bytes, whatever follows it. -/
structure Spells (literal : String) (bytes : List UInt8) : Prop where
  printable : ∀ c ∈ literal.toList, ' ' ≤ c ∧ c ≤ '~'
  closed : ∃ body, literal.toList = '"' :: (body ++ ['"']) ∧ Closed body
  read : ∀ rest, read? (literal.toList ++ rest) = some (bytes, rest)

variable {c : Char} {rest : List Char}

@[simp] theorem prepend_nil (read : Option (List UInt8 × List Char)) : prepend [] read = read := by
  cases read <;> rfl

@[simp] theorem prepend_prepend (xs ys : List UInt8) (read : Option (List UInt8 × List Char)) :
    prepend xs (prepend ys read) = prepend (xs ++ ys) read := by
  cases read <;> simp [prepend]

/-! ### Bytes in hexadecimal -/

/-- A digit is printable, and begins no other escape. -/
theorem digit_plain : ∀ n < 16, ' ' ≤ Hex.digit n ∧ Hex.digit n ≤ '~' ∧
    Hex.digit n ∉ ['n', 'r', 't', '"', '\\'] := by decide

theorem digit?_digit : ∀ n < 16, digit? (Hex.digit n) = some n := by decide

theorem high_lt (b : UInt8) : b.toNat / 16 < 16 := by
  have := b.toNat_lt
  omega

theorem low_lt (b : UInt8) : b.toNat % 16 < 16 := Nat.mod_lt _ (by decide)

theorem readBody?_hex {high low : Char} {h l : Nat} (rest : List Char)
    (hplain : high ∉ ['n', 'r', 't', '"', '\\']) (hh : digit? high = some h) (hl : digit? low = some l) :
    readBody? ('\\' :: high :: low :: rest) = prepend [UInt8.ofNat (16 * h + l)] (readBody? rest) := by
  simp only [List.mem_cons, List.not_mem_nil, or_false, not_or] at hplain
  rw [readBody?]
  · rw [hh, hl]
  all_goals simp_all

theorem readBody?_escapeByte (b : UInt8) (rest : List Char) :
    readBody? (escapeByte b ++ rest) = prepend [b] (readBody? rest) := by
  have hbyte : UInt8.ofNat (16 * (b.toNat / 16) + b.toNat % 16) = b := by
    rw [Nat.div_add_mod, UInt8.ofNat_toNat]
  have hread := readBody?_hex rest (digit_plain _ (high_lt b)).2.2 (digit?_digit _ (high_lt b))
    (digit?_digit _ (low_lt b))
  rwa [hbyte] at hread

theorem readBody?_escapeBytes (bytes : List UInt8) (rest : List Char) :
    readBody? (bytes.flatMap escapeByte ++ rest) = prepend bytes (readBody? rest) := by
  induction bytes with
  | nil => simp
  | cons b bytes ih =>
    rw [List.flatMap_cons, List.append_assoc, readBody?_escapeByte, ih, prepend_prepend,
      List.singleton_append]

/-! ### Characters -/

theorem utf8_singleton (c : Char) : utf8 (String.singleton c) = String.utf8EncodeChar c := by
  rw [utf8_eq_flatMap, String.toList_singleton, List.flatMap_singleton]

theorem encodeChar_ascii (h : c ≤ '~') : String.utf8EncodeChar c = [c.toUInt8] := by
  have hle : c.val.toNat ≤ 0x7f := Nat.le_trans (show c.val.toNat ≤ 0x7e from h) (by decide)
  rw [String.utf8EncodeChar, if_pos hle]
  rfl

/-- The escape of a character is read as its UTF-8. -/
theorem readBody?_escape (c : Char) (rest : List Char) :
    readBody? (escape c ++ rest) = prepend (String.utf8EncodeChar c) (readBody? rest) := by
  unfold escape
  split_ifs with hn hr ht hquote hslash hprint
  · subst hn; rfl
  · subst hr; rfl
  · subst ht; rfl
  · subst hquote; rfl
  · subst hslash; rfl
  · rw [List.singleton_append, readBody?, if_pos hprint, encodeChar_ascii hprint.2]
    all_goals simp_all
  · rw [utf8_singleton, readBody?_escapeBytes]

theorem readBody?_escapes (cs rest : List Char) :
    readBody? (cs.flatMap escape ++ rest) =
      prepend (cs.flatMap String.utf8EncodeChar) (readBody? rest) := by
  induction cs with
  | nil => simp
  | cons c cs ih =>
    rw [List.flatMap_cons, List.append_assoc, readBody?_escape, ih, prepend_prepend, List.flatMap_cons]

/-! ### What stands between the quotes -/

theorem printable_pair (h : ' ' ≤ c ∧ c ≤ '~') : ∀ x ∈ ['\\', c], ' ' ≤ x ∧ x ≤ '~' := by
  intro x hx
  rw [List.mem_cons, List.mem_singleton] at hx
  rcases hx with rfl | rfl
  · decide
  · exact h

theorem printable_escape (c : Char) : ∀ x ∈ escape c, ' ' ≤ x ∧ x ≤ '~' := by
  unfold escape
  split_ifs with hn hr ht hquote hslash hprint
  · exact printable_pair (by decide)
  · exact printable_pair (by decide)
  · exact printable_pair (by decide)
  · exact printable_pair (by decide)
  · exact printable_pair (by decide)
  · simpa using hprint
  · intro x hx
    obtain ⟨b, -, hx⟩ := List.mem_flatMap.mp hx
    have hhigh := digit_plain _ (high_lt b)
    have hlow := digit_plain _ (low_lt b)
    simp only [escapeByte, Hex.ofByte, List.mem_cons, List.not_mem_nil, or_false] at hx
    rcases hx with rfl | rfl | rfl
    · decide
    · exact ⟨hhigh.1, hhigh.2.1⟩
    · exact ⟨hlow.1, hlow.2.1⟩

theorem unescaped_cons (h : c ≠ '\\') (rest : List Char) :
    unescaped (c :: rest) = c :: unescaped rest := by
  rw [unescaped]
  exact fun _ _ hc _ => h hc

theorem Closed.cons (h : Closed rest) (hquote : c ≠ '"') (hslash : c ≠ '\\') : Closed (c :: rest) := by
  rw [Closed, unescaped_cons hslash]
  exact ⟨List.not_mem_cons_of_ne_of_not_mem hquote.symm h.1,
    List.not_mem_cons_of_ne_of_not_mem hslash.symm h.2⟩

theorem Closed.escapeBytes (h : Closed rest) (bytes : List UInt8) :
    Closed (bytes.flatMap escapeByte ++ rest) := by
  induction bytes with
  | nil => exact h
  | cons b bytes ih =>
    have hdigit := (digit_plain _ (low_lt b)).2.2
    simp only [List.mem_cons, List.not_mem_nil, or_false, not_or] at hdigit
    obtain ⟨-, -, -, hquote, hslash⟩ := hdigit
    -- The backslash escapes the first digit; the second one stands for itself.
    exact ih.cons hquote hslash

/-- Whole escapes in front leave escaped what is escaped. -/
theorem Closed.escape (h : Closed rest) (c : Char) : Closed (escape c ++ rest) := by
  unfold Quoted.escape
  split_ifs with hn hr ht hquote hslash hprint
  · exact h
  · exact h
  · exact h
  · exact h
  · exact h
  · exact h.cons hquote hslash
  · exact h.escapeBytes _

theorem closed_escapes (cs : List Char) : Closed (cs.flatMap escape) := by
  induction cs with
  | nil => exact ⟨List.not_mem_nil, List.not_mem_nil⟩
  | cons c cs ih =>
    rw [List.flatMap_cons]
    exact ih.escape c

/-! ### Literals -/

theorem toList_text (s : String) : (text s).toList = '"' :: (s.toList.flatMap escape ++ ['"']) := by
  simp [text]

theorem spells_text (s : String) : Spells (text s) (utf8 s) where
  printable := by
    intro c hc
    rw [toList_text, List.mem_cons, List.mem_append, List.mem_singleton] at hc
    rcases hc with rfl | hc | rfl
    · decide
    · obtain ⟨d, -, hc⟩ := List.mem_flatMap.mp hc
      exact printable_escape d c hc
    · decide
  closed := ⟨_, toList_text s, closed_escapes _⟩
  read := by
    intro rest
    rw [toList_text, List.cons_append, List.append_assoc, read?, readBody?_escapes, ← utf8_eq_flatMap,
      List.singleton_append, readBody?]
    simp [prepend]

/-- A literal spells one byte string. -/
theorem Spells.unique {literal : String} {xs ys : List UInt8} (hx : Spells literal xs)
    (hy : Spells literal ys) : xs = ys := by
  have h := (hx.read []).symm.trans (hy.read [])
  exact congrArg Prod.fst (Option.some.inj h)

/-- The literal of a text is printable ASCII, in which each quote and each backslash is escaped, and is read
    back as the UTF-8 of the text, whatever follows it. So different texts have different literals. -/
theorem text_legible : (∀ s : String, Spells (text s) (utf8 s)) ∧ Function.Injective text := by
  refine ⟨spells_text, fun s t h => ?_⟩
  have hbytes : utf8 s = utf8 t := (h ▸ spells_text s).unique (spells_text t)
  have hsame := congrArg utf8? hbytes
  rw [utf8?_utf8, utf8?_utf8] at hsame
  exact Option.some.inj hsame

end TypedWire.Quoted
