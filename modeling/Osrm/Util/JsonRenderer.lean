import Osrm.Lib.JsonGrammar
import Mathlib.Data.List.TakeWhile
import Mathlib.Data.UInt

/-!
# The JSON renderer

`render` writes a JSON value into a buffer of bytes. String values are escaped when they hold one
of eight letters, keys are written as they are. A string is a list of bytes; where its text is
UTF-8, the renderer works on the characters in the same way (`renderValue_utf8`), so the functions
are given for letters of any kind.

The text stands for the value that was rendered, and for no other, exactly when no key needs
escaping and no string value has a control character that is not escaped (`render_denotes_iff`).
-/

namespace Osrm.JsonRenderer

open List

open Lib.Json

section Renderer

variable {α : Type} [DecidableEq α] (letter : Char → α)

/-- The letters that are escaped in `EscapeJSONString`, with the letter behind the backslash. -/
def escapes : List (Char × Char) :=
  [('\\', '\\'), ('"', '"'), ('/', '/'), ('\x08', 'b'), ('\x0c', 'f'), ('\n', 'n'), ('\r', 'r'), ('\t', 't')]

def requiresJSONStringEscaping (string : List α) : Bool := string.any fun x => escapes.any fun e => letter e.1 = x

/-- What `EscapeJSONString` writes for one letter. -/
def escapeLetter (x : α) : List α :=
  match escapes.find? fun e => letter e.1 = x with
  | some e => [letter '\\', letter e.2]
  | none => [x]

def escapeJSONString (input : List α) : List α := input.flatMap (escapeLetter letter)

/-- The text of a string value between its quotation marks. -/
def renderString (string : List α) : List α :=
  if requiresJSONStringEscaping letter string then escapeJSONString letter string else string

mutual

/-- `Renderer` -/
def renderValue : Value (List α) → List α
  | .string s => letter '"' :: (renderString letter s ++ [letter '"'])
  | .object members => letter '\x7b' :: (renderMembers members ++ [letter '\x7d'])
  | .array elements => letter '[' :: (renderElements elements ++ [letter ']'])
  | .jsonTrue => ['t', 'r', 'u', 'e'].map letter
  | .jsonFalse => ['f', 'a', 'l', 's', 'e'].map letter
  | .null => ['n', 'u', 'l', 'l'].map letter

/-- The loop over the members of an object. -/
def renderMembers : List (List α × Value (List α)) → List α
  | [] => []
  | (key, value) :: rest =>
    letter '"' :: (key ++ (letter '"' :: letter ':' ::
      (renderValue value ++ ((if rest.isEmpty then [] else [letter ',']) ++ renderMembers rest))))

/-- The loop over the elements of an array. -/
def renderElements : List (Value (List α)) → List α
  | [] => []
  | value :: rest => renderValue value ++ ((if rest.isEmpty then [] else [letter ',']) ++ renderElements rest)

end

end Renderer

/-- `json::render`, which the source calls for objects. -/
def render (value : Value (List UInt8)) : List UInt8 := renderValue Char.toUInt8 value

/-! ### Strings as UTF-8 -/

def utf8 (text : List Char) : List UInt8 := text.flatMap String.utf8EncodeChar

mutual

/-- A value with all its strings and keys in UTF-8. -/
def utf8Value : Value (List Char) → Value (List UInt8)
  | .string s => .string (utf8 s)
  | .object members => .object (utf8Members members)
  | .array elements => .array (utf8Elements elements)
  | .jsonTrue => .jsonTrue
  | .jsonFalse => .jsonFalse
  | .null => .null

def utf8Members : List (List Char × Value (List Char)) → List (List UInt8 × Value (List UInt8))
  | [] => []
  | (key, value) :: rest => (utf8 key, utf8Value value) :: utf8Members rest

def utf8Elements : List (Value (List Char)) → List (Value (List UInt8))
  | [] => []
  | value :: rest => utf8Value value :: utf8Elements rest

end

@[simp] theorem utf8_nil : utf8 [] = [] := rfl

@[simp] theorem utf8_cons (c : Char) (s : List Char) : utf8 (c :: s) = String.utf8EncodeChar c ++ utf8 s := rfl

@[simp] theorem utf8_append (s t : List Char) : utf8 (s ++ t) = utf8 s ++ utf8 t := flatMap_append

theorem utf8_injective {s t : List Char} (same : utf8 s = utf8 t) : s = t := by
  have decoded : s.utf8Encode.utf8Decode? = t.utf8Encode.utf8Decode? :=
    congrArg (fun bytes : List UInt8 => bytes.toByteArray.utf8Decode?) same
  rw [utf8Decode?_utf8Encode, utf8Decode?_utf8Encode, Option.some_inj] at decoded
  exact congrArg Array.toList decoded

section Letters

variable {α : Type} [DecidableEq α] {letter : Char → α}

theorem escapeLetter_eq_self {x : α} (plain : ∀ e ∈ escapes, letter e.1 ≠ x) : escapeLetter letter x = [x] := by
  have none : (escapes.find? fun e => letter e.1 = x) = none := by
    rw [find?_eq_none]
    intro e mem
    simpa using plain e mem
  rw [escapeLetter, none]

/-- The check in front only saves the copy. -/
theorem renderString_eq (s : List α) : renderString letter s = escapeJSONString letter s := by
  rw [renderString]
  split_ifs with plain
  · rfl
  · simp only [requiresJSONStringEscaping, any_eq_true, decide_eq_true_eq, not_exists, not_and] at plain
    rw [escapeJSONString, flatMap_congr fun x mem => escapeLetter_eq_self (plain x mem), flatMap_singleton']

theorem escapeJSONString_cons (x : α) (s : List α) :
    escapeJSONString letter (x :: s) = escapeLetter letter x ++ escapeJSONString letter s :=
  rfl

end Letters

theorem escapeLetter_ascii : ∀ n < 128,
    (String.utf8EncodeChar (Char.ofNat n)).flatMap (escapeLetter Char.toUInt8) = utf8 (escapeLetter id (Char.ofNat n)) := by
  decide

theorem le_of_mem_utf8EncodeChar {c : Char} (wide : 128 ≤ c.toNat) {b : UInt8} (mem : b ∈ String.utf8EncodeChar c) :
    128 ≤ b.toNat := by
  rw [String.utf8EncodeChar] at mem
  simp only [Char.toNat] at wide
  split at mem
  · omega
  split at mem
  · simp only [mem_cons, not_mem_nil, or_false] at mem
    rcases mem with rfl | rfl <;> simp only [UInt8.toNat_ofNat'] <;> omega
  split at mem
  · simp only [mem_cons, not_mem_nil, or_false] at mem
    rcases mem with rfl | rfl | rfl <;> simp only [UInt8.toNat_ofNat'] <;> omega
  · simp only [mem_cons, not_mem_nil, or_false] at mem
    rcases mem with rfl | rfl | rfl | rfl <;> simp only [UInt8.toNat_ofNat'] <;> omega

theorem escapeLetter_utf8 (c : Char) :
    (String.utf8EncodeChar c).flatMap (escapeLetter Char.toUInt8) = utf8 (escapeLetter id c) := by
  by_cases ascii : c.toNat < 128
  · have value := escapeLetter_ascii c.toNat ascii
    rwa [Char.ofNat_toNat] at value
  · have bytes : ∀ e ∈ escapes, e.1.toUInt8.toNat < 128 := by decide
    have chars : ∀ e ∈ escapes, e.1.toNat < 128 := by decide
    have same : escapeLetter id c = [c] := by
      apply escapeLetter_eq_self
      rintro e mem rfl
      exact ascii (chars e mem)
    have each : ∀ b ∈ String.utf8EncodeChar c, escapeLetter Char.toUInt8 b = [b] := by
      intro b mem
      apply escapeLetter_eq_self
      rintro e known rfl
      exact absurd (le_of_mem_utf8EncodeChar (Nat.not_lt.1 ascii) mem) (Nat.not_le.2 (bytes e known))
    rw [same, flatMap_congr each, flatMap_singleton', utf8_cons, utf8_nil, append_nil]

theorem renderString_utf8 (s : List Char) : renderString Char.toUInt8 (utf8 s) = utf8 (renderString id s) := by
  rw [renderString_eq, renderString_eq]
  induction s with
  | nil => rfl
  | cons c s ih =>
    rw [escapeJSONString_cons, utf8_append, ← ih, ← escapeLetter_utf8]
    exact flatMap_append

variable (ms : List (List Char × Value (List Char)))

theorem isEmpty_utf8Members : (utf8Members ms).isEmpty = ms.isEmpty := by
  cases ms with
  | nil => rfl
  | cons m ms =>
    rfl

variable (vs : List (Value (List Char)))

theorem isEmpty_utf8Elements : (utf8Elements vs).isEmpty = vs.isEmpty := by
  cases vs with
  | nil => rfl
  | cons v vs => rfl

theorem utf8_separator (p : Bool) : utf8 (if p then [] else [',']) = if p then [] else [Char.toUInt8 ','] := by
  cases p <;> rfl

mutual

/-- **On UTF-8 the renderer works on the characters.** -/
theorem renderValue_utf8 : ∀ v, renderValue Char.toUInt8 (utf8Value v) = utf8 (renderValue id v)
  | .string s => by
    rw [utf8Value, renderValue, renderValue, renderString_utf8, utf8_cons, utf8_append]
    rfl
  | .object ms => by
    rw [utf8Value, renderValue, renderValue, renderMembers_utf8 ms, utf8_cons, utf8_append]
    rfl
  | .array vs => by
    rw [utf8Value, renderValue, renderValue, renderElements_utf8 vs, utf8_cons, utf8_append]
    rfl
  | .jsonTrue => rfl
  | .jsonFalse => rfl
  | .null => rfl

theorem renderMembers_utf8 : ∀ ms, renderMembers Char.toUInt8 (utf8Members ms) = utf8 (renderMembers id ms)
  | [] => rfl
  | (k, v) :: ms => by
    rw [utf8Members, renderMembers, renderMembers, renderValue_utf8 v, renderMembers_utf8 ms, isEmpty_utf8Members]
    simp only [utf8_cons, utf8_append, id_eq, utf8_separator]
    rfl

theorem renderElements_utf8 : ∀ vs, renderElements Char.toUInt8 (utf8Elements vs) = utf8 (renderElements id vs)
  | [] => rfl
  | v :: vs => by
    rw [utf8Elements, renderElements, renderElements, renderValue_utf8 v, renderElements_utf8 vs, isEmpty_utf8Elements]
    simp only [utf8_append, id_eq, utf8_separator]

end

/-! ### Strings and keys in the grammar -/

variable {c : Char} {t s r r' : List Char}

/-- A character that may stand in a string value: the renderer escapes no other control characters than these. -/
def Writable (c : Char) : Prop := 0x20 ≤ c.toNat ∨ c ∈ ['\x08', '\x0c', '\n', '\r', '\t']

/-- A character that stands for itself in a string. -/
def Plain (c : Char) : Prop := 0x20 ≤ c.toNat ∧ c ≠ '"' ∧ c ≠ '\\'

instance (c : Char) : Decidable (Writable c) := by
  unfold Writable
  infer_instance

instance (c : Char) : Decidable (Plain c) := by
  unfold Plain
  infer_instance

theorem escapeLetter_cases (c : Char) :
    (∃ e ∈ escapes, e.1 = c ∧ escapeLetter id c = ['\\', e.2]) ∨ (∀ e ∈ escapes, e.1 ≠ c) ∧ escapeLetter id c = [c] := by
  cases found : escapes.find? fun e => id e.1 = c with
  | none =>
    have plain : ∀ e ∈ escapes, e.1 ≠ c := by simpa using List.find?_eq_none.1 found
    exact .inr ⟨plain, escapeLetter_eq_self plain⟩
  | some e =>
    have same : e.1 = c := by simpa using List.find?_some found
    exact .inl ⟨e, List.mem_of_find?_eq_some found, same, by rw [escapeLetter, found]; rfl⟩

theorem code_escapeLetter_iff : Code (escapeLetter id c ++ r) c r' ↔ Writable c ∧ r' = r := by
  have listed : ∀ e ∈ escapes, shortEscape e.2 = some e.1 ∧ Writable e.1 ∧ e.2 ≠ 'u' := by decide
  rcases escapeLetter_cases c with ⟨⟨d, e⟩, mem, same, text⟩ | ⟨other, text⟩
  · obtain ⟨known, writable, notHex⟩ := listed (d, e) mem
    obtain rfl : d = c := same
    rw [text]
    constructor
    · intro code
      cases code with
      | unescaped _ _ noBackslash => exact absurd rfl noBackslash
      | short _ => exact ⟨writable, rfl⟩
      | hex _ => exact absurd rfl notHex
      | surrogates => exact absurd rfl notHex
    · rintro ⟨-, rfl⟩
      exact .short known
  · have noBackslash : c ≠ '\\' := fun same => other ('\\', '\\') (by decide) same.symm
    have noQuote : c ≠ '"' := fun same => other ('"', '"') (by decide) same.symm
    rw [text]
    constructor
    · intro code
      cases code with
      | unescaped printable _ _ => exact ⟨.inl printable, rfl⟩
      | short _ => exact absurd rfl noBackslash
      | hex _ => exact absurd rfl noBackslash
      | surrogates => exact absurd rfl noBackslash
    · rintro ⟨printable | control, rfl⟩
      · exact .unescaped printable noQuote noBackslash
      · have escaped : (['\x08', '\x0c', '\n', '\r', '\t'].all fun d => escapes.any fun e => e.1 == d) = true := by decide
        obtain ⟨e, mem, same⟩ := any_eq_true.1 (all_eq_true.1 escaped c control)
        exact absurd (eq_of_beq same) (other e mem)

theorem content_renderString_iff :
    Content (renderString id s ++ '"' :: r) s r' ↔ (∀ c ∈ s, Writable c) ∧ r' = r := by
  rw [renderString_eq]
  induction s with
  | nil =>
    constructor
    · intro content
      cases content
      exact ⟨fun _ none => absurd none List.not_mem_nil, rfl⟩
    · rintro ⟨-, rfl⟩
      exact .close
  | cons c s ih =>
    rw [escapeJSONString_cons, List.append_assoc, List.forall_mem_cons, content_cons_iff]
    constructor
    · rintro ⟨t, code, rest⟩
      obtain ⟨writable, rfl⟩ := code_escapeLetter_iff.1 code
      obtain ⟨later, same⟩ := ih.1 rest
      exact ⟨⟨writable, later⟩, same⟩
    · rintro ⟨⟨writable, later⟩, same⟩
      exact ⟨_, code_escapeLetter_iff.2 ⟨writable, rfl⟩, ih.2 ⟨later, same⟩⟩

/-- The place of the first quotation mark. -/
def firstQuote (t : List Char) : ℕ := (t.takeWhile (· ≠ '"')).length

theorem firstQuote_append {u : List Char} (noQuote : '"' ∉ u) (t : List Char) :
    firstQuote (u ++ t) = u.length + firstQuote t := by
  have all : ∀ c ∈ u, decide (c ≠ '"') = true := by
    intro c mem
    exact decide_eq_true fun same => noQuote (same ▸ mem)
  rw [firstQuote, takeWhile_append_of_pos all, length_append, firstQuote]

theorem hexDigit_quote : hexDigit '"' = none := by decide

theorem hex4_noQuote {a b c d : Char} {n : ℕ} (value : hex4 a b c d = some n) : a ≠ '"' ∧ b ≠ '"' ∧ c ≠ '"' ∧ d ≠ '"' := by
  simp only [hex4] at value
  refine ⟨?_, ?_, ?_, ?_⟩ <;> rintro rfl <;> simp_all [hexDigit_quote]

/-- The letters of one character: the character itself, or an escape, which is longer. -/
theorem Code.spelling {c : Char} (code : Code t c r) :
    ∃ u, t = u ++ r ∧ (u = [c] ∧ Plain c ∨ 2 ≤ u.length) ∧ ('"' ∉ u ∨ c = '"' ∧ firstQuote t = 1) := by
  cases code with
  | unescaped printable noQuote noBackslash =>
    exact ⟨[c], rfl, .inl ⟨rfl, printable, noQuote, noBackslash⟩, .inl (by simpa using noQuote.symm)⟩
  | @short _ e _ known =>
    refine ⟨['\\', e], rfl, .inr (by simp), ?_⟩
    by_cases quote : e = '"'
    · subst quote
      exact .inr ⟨(Option.some_inj.1 known).symm, rfl⟩
    · exact .inl (by simpa using Ne.symm quote)
  | hex value =>
    obtain ⟨h₁, h₂, h₃, h₄⟩ := hex4_noQuote value
    exact ⟨_ :: _ :: _ :: _ :: _ :: [_], rfl, .inr (by simp), .inl (by simp [h₁.symm, h₂.symm, h₃.symm, h₄.symm])⟩
  | surrogates first second =>
    obtain ⟨h₁, h₂, h₃, h₄⟩ := hex4_noQuote first
    obtain ⟨k₁, k₂, k₃, k₄⟩ := hex4_noQuote second
    exact ⟨_ :: _ :: _ :: _ :: _ :: _ :: _ :: _ :: _ :: _ :: _ :: [_], rfl, .inr (by simp),
      .inl (by simp [h₁.symm, h₂.symm, h₃.symm, h₄.symm, k₁.symm, k₂.symm, k₃.symm, k₄.symm])⟩

/-- The first quotation mark of the text ends the string, unless the string has one before that place. -/
theorem Content.length_eq (content : Content t s r) (noQuote : '"' ∉ s.take (firstQuote t)) :
    t.length = firstQuote t + 1 + r.length := by
  induction content with
  | close => simp [firstQuote, Nat.add_comm]
  | @char t t' s r c code rest ih =>
    obtain ⟨u, rfl, shape, inside | ⟨rfl, one⟩⟩ := Code.spelling code
    · have pos : 0 < u.length := by
        rcases shape with ⟨rfl, -⟩ | long
        · exact Nat.one_pos
        · omega
      rw [firstQuote_append inside] at noQuote ⊢
      have fewer : '"' ∉ s.take (firstQuote t') := by
        intro mem
        apply noQuote
        obtain ⟨n, size⟩ := Nat.exists_eq_add_of_le' pos
        rw [size, Nat.add_right_comm]
        exact mem_cons_of_mem _ (take_subset_take_left s (Nat.le_add_left _ _) mem)
      rw [length_append, ih fewer]
      omega
    · rw [one] at noQuote
      exact absurd (by simp) noQuote

/-- A spelling is no shorter than the string, and only the string itself is as short. -/
theorem Content.length_le (content : Content t s r) :
    s.length + 1 + r.length ≤ t.length ∧
      (s.length + 1 + r.length = t.length → t = s ++ '"' :: r ∧ ∀ c ∈ s, Plain c) := by
  induction content with
  | close =>
    refine ⟨by simp [Nat.add_comm], fun _ => ⟨rfl, fun _ none => absurd none List.not_mem_nil⟩⟩
  | @char t t' s r c code rest ih =>
    obtain ⟨le, tight⟩ := ih
    obtain ⟨u, rfl, shape, -⟩ := Code.spelling code
    rw [List.length_append, List.length_cons, List.forall_mem_cons]
    rcases shape with ⟨rfl, plain⟩ | long
    · refine ⟨by rw [List.length_singleton]; omega, fun same => ?_⟩
      rw [List.length_singleton] at same
      obtain ⟨rfl, later⟩ := tight (by omega)
      exact ⟨rfl, plain, later⟩
    · exact ⟨by omega, by omega⟩

theorem firstQuote_key (k r : List Char) :
    firstQuote (k ++ '"' :: r) ≤ k.length ∧ '"' ∉ k.take (firstQuote (k ++ '"' :: r)) := by
  induction k with
  | nil => exact ⟨Nat.le_refl 0, not_mem_nil⟩
  | cons c k ih =>
    by_cases quote : c = '"'
    · subst quote
      exact ⟨Nat.zero_le _, List.not_mem_nil⟩
    · have step := firstQuote_append (u := [c]) (by simpa using Ne.symm quote) (k ++ '"' :: r)
      rw [singleton_append, length_singleton, Nat.add_comm] at step
      rw [cons_append, step, take_succ_cons, mem_cons, not_or]
      exact ⟨Nat.succ_le_succ ih.1, Ne.symm quote, ih.2⟩

theorem content_key_iff {k r r' : List Char} : Content (k ++ '"' :: r) k r' ↔ (∀ c ∈ k, Plain c) ∧ r' = r := by
  constructor
  · intro content
    obtain ⟨place, before⟩ := firstQuote_key k r
    have length := Content.length_eq content before
    obtain ⟨le, tight⟩ := Content.length_le content
    obtain ⟨same, plain⟩ := tight (by omega)
    exact ⟨plain, (List.cons.inj (List.append_cancel_left same)).2.symm⟩
  · rintro ⟨plain, rfl⟩
    induction k with
    | nil => exact .close
    | cons c k ih =>
      obtain ⟨⟨printable, noQuote, noBackslash⟩, later⟩ := List.forall_mem_cons.1 plain
      exact .char (.unescaped printable noQuote noBackslash) (ih later)

/-! ### Values in the grammar -/

mutual

/-- No key needs escaping, and the control characters of the string values are among those that are escaped. -/
def Clean : Value (List Char) → Prop
  | .string s => ∀ c ∈ s, Writable c
  | .object members => CleanMembers members
  | .array elements => CleanElements elements
  | .jsonTrue => True
  | .jsonFalse => True
  | .null => True

def CleanMembers : List (List Char × Value (List Char)) → Prop
  | [] => True
  | (key, value) :: rest => (∀ c ∈ key, Plain c) ∧ Clean value ∧ CleanMembers rest

def CleanElements : List (Value (List Char)) → Prop
  | [] => True
  | value :: rest => Clean value ∧ CleanElements rest

end

variable (v : Value (List Char)) (r : List Char)

/-- The text from the end of a member on. -/
def membersTail (ms : List (List Char × Value (List Char))) (r : List Char) : List Char :=
  (if ms.isEmpty then [] else [',']) ++ (renderMembers id ms ++ '\x7d' :: r)

/-- The text from the end of an element on. -/
def elementsTail (vs : List (Value (List Char))) (r : List Char) : List Char :=
  (if vs.isEmpty then [] else [',']) ++ (renderElements id vs ++ ']' :: r)

theorem renderMembers_cons (k : List Char) (v : Value (List Char)) (ms : List (List Char × Value (List Char))) (r : List Char) :
    renderMembers id ((k, v) :: ms) ++ '\x7d' :: r = '"' :: (k ++ '"' :: ':' :: (renderValue id v ++ membersTail ms r)) := by
  simp [renderMembers, membersTail]

theorem renderElements_cons :
    renderElements id (v :: vs) ++ ']' :: r = renderValue id v ++ elementsTail vs r := by
  simp [renderElements, elementsTail]

theorem stops_renderValue : Stops (renderValue id v ++ r) := by
  cases v <;> exact stops_cons

/-- What the grammar says of the text of a value. -/
def Reads : Prop := ∀ r r', Denotes (renderValue id v ++ r) v r' ↔ Clean v ∧ r' = r

theorem Reads.element {v : Value (List Char)} (reads : Reads v) {t r : List Char} (stops : Stops t) :
    Element (renderValue id v ++ t) v r ↔ Clean v ∧ r = t := by
  constructor
  · rintro ⟨before, value, after⟩
    obtain rfl := ws_eq_of_stops (stops_renderValue v t) before
    obtain ⟨clean, rfl⟩ := (reads _ _).1 value
    exact ⟨clean, ws_eq_of_stops stops after⟩
  · rintro ⟨clean, rfl⟩
    exact ⟨.stop, (reads _ _).2 ⟨clean, rfl⟩, .stop⟩

theorem Reads.member {v : Value (List Char)} (reads : Reads v) {k t r : List Char} (stops : Stops t) :
    Member ('"' :: (k ++ '"' :: ':' :: (renderValue id v ++ t))) (k, v) r ↔ ((∀ c ∈ k, Plain c) ∧ Clean v) ∧ r = t := by
  constructor
  · rintro ⟨before, key, after, value⟩
    cases ws_eq_of_stops stops_cons before
    obtain ⟨plain, rfl⟩ := content_key_iff.1 key
    cases ws_eq_of_stops stops_cons after
    obtain ⟨clean, same⟩ := (reads.element stops).1 value
    exact ⟨⟨plain, clean⟩, same⟩
  · rintro ⟨⟨plain, clean⟩, rfl⟩
    exact ⟨.stop, content_key_iff.2 ⟨plain, rfl⟩, .stop, (reads.element stops).2 ⟨clean, rfl⟩⟩

theorem stops_membersTail : Stops (membersTail ms r) := by
  cases ms <;> exact stops_cons

theorem stops_elementsTail : Stops (elementsTail vs r) := by
  cases vs <;> exact stops_cons

mutual

theorem reads : ∀ v, Reads v
  | .string s => by
    intro r r'
    have text : renderValue id (.string s) ++ r = '"' :: (renderString id s ++ '"' :: r) := by simp [renderValue]
    rw [text, Clean, ← content_renderString_iff]
    constructor
    · rintro ⟨content⟩
      exact content
    · exact .string
  | .object [] => by
    intro r r'
    constructor
    · intro denotes
      cases denotes with
      | emptyObject blank => exact ⟨trivial, (List.cons.inj (ws_eq_of_stops stops_cons blank)).2⟩
    · rintro ⟨-, rfl⟩
      exact .emptyObject .stop
  | .object ((k, v) :: ms) => by
    intro r r'
    have text : renderValue id (.object ((k, v) :: ms)) ++ r =
        '\x7b' :: '"' :: (k ++ '"' :: ':' :: (renderValue id v ++ membersTail ms r)) := by
      rw [← renderMembers_cons]
      simp [renderValue]
    rw [text, Clean, CleanMembers]
    constructor
    · intro denotes
      cases denotes with
      | object first rest =>
        obtain ⟨⟨plain, clean⟩, rfl⟩ := ((reads v).member (stops_membersTail ms r)).1 first
        obtain ⟨later, same⟩ := (readsMembersEnd ms r r').1 rest
        exact ⟨⟨plain, clean, later⟩, same⟩
    · rintro ⟨⟨plain, clean, later⟩, same⟩
      exact .object (((reads v).member (stops_membersTail ms r)).2 ⟨⟨plain, clean⟩, rfl⟩)
        ((readsMembersEnd ms r r').2 ⟨later, same⟩)
  | .array [] => by
    intro r r'
    constructor
    · intro denotes
      cases denotes with
      | emptyArray blank => exact ⟨trivial, (List.cons.inj (ws_eq_of_stops stops_cons blank)).2⟩
    · rintro ⟨-, rfl⟩
      exact .emptyArray .stop
  | .array (v :: vs) => by
    intro r r'
    have text : renderValue id (.array (v :: vs)) ++ r = '[' :: (renderValue id v ++ elementsTail vs r) := by
      rw [← renderElements_cons]
      simp [renderValue]
    rw [text, Clean, CleanElements]
    constructor
    · intro denotes
      cases denotes with
      | array first rest =>
        obtain ⟨clean, rfl⟩ := ((reads v).element (stops_elementsTail vs r)).1 first
        obtain ⟨later, same⟩ := (readsElementsEnd vs r r').1 rest
        exact ⟨⟨clean, later⟩, same⟩
    · rintro ⟨⟨clean, later⟩, same⟩
      exact .array (((reads v).element (stops_elementsTail vs r)).2 ⟨clean, rfl⟩)
        ((readsElementsEnd vs r r').2 ⟨later, same⟩)
  | .jsonTrue | .jsonFalse | .null => by
    intro r r'
    constructor
    · rintro ⟨⟩
      exact ⟨trivial, rfl⟩
    · rintro ⟨-, rfl⟩
      constructor

theorem readsElementsEnd : ∀ (vs : List (Value (List Char))) (r r' : List Char),
    ElementsEnd (elementsTail vs r) vs r' ↔ CleanElements vs ∧ r' = r
  | [] => by
    intro r r'
    constructor
    · rintro ⟨⟩
      exact ⟨trivial, rfl⟩
    · rintro ⟨-, rfl⟩
      exact .close
  | v :: vs => by
    intro r r'
    have text : elementsTail (v :: vs) r = ',' :: (renderValue id v ++ elementsTail vs r) := by
      rw [← renderElements_cons]
      rfl
    rw [text, CleanElements]
    constructor
    · intro ends
      cases ends with
      | more next rest =>
        obtain ⟨clean, rfl⟩ := ((reads v).element (stops_elementsTail vs r)).1 next
        obtain ⟨later, same⟩ := (readsElementsEnd vs r r').1 rest
        exact ⟨⟨clean, later⟩, same⟩
    · rintro ⟨⟨clean, later⟩, same⟩
      exact .more (((reads v).element (stops_elementsTail vs r)).2 ⟨clean, rfl⟩)
        ((readsElementsEnd vs r r').2 ⟨later, same⟩)

theorem readsMembersEnd : ∀ (ms : List (List Char × Value (List Char))) (r r' : List Char),
    MembersEnd (membersTail ms r) ms r' ↔ CleanMembers ms ∧ r' = r
  | [] => by
    intro r r'
    constructor
    · rintro ⟨⟩
      exact ⟨trivial, rfl⟩
    · rintro ⟨-, rfl⟩
      exact .close
  | (k, v) :: ms => by
    intro r r'
    have text : membersTail ((k, v) :: ms) r =
        ',' :: '"' :: (k ++ '"' :: ':' :: (renderValue id v ++ membersTail ms r)) := by
      rw [← renderMembers_cons]
      rfl
    rw [text, CleanMembers]
    constructor
    · intro ends
      cases ends with
      | more next rest =>
        obtain ⟨⟨plain, clean⟩, rfl⟩ := ((reads v).member (stops_membersTail ms r)).1 next
        obtain ⟨later, same⟩ := (readsMembersEnd ms r r').1 rest
        exact ⟨⟨plain, clean, later⟩, same⟩
    · rintro ⟨⟨plain, clean, later⟩, same⟩
      exact .more (((reads v).member (stops_membersTail ms r)).2 ⟨⟨plain, clean⟩, rfl⟩)
        ((readsMembersEnd ms r r').2 ⟨later, same⟩)

end

theorem jsonText_render_iff : JsonText (renderValue id v) v ↔ Clean v := by
  have finished : Stops [] := fun _ _ none => nomatch none
  have whole : Element (renderValue id v ++ []) v [] ↔ Clean v ∧ [] = [] := (reads v).element finished
  rw [append_nil] at whole
  rw [JsonText, whole]
  exact and_iff_left rfl

theorem clean_of_text {v : Value (List Char)} {text : List Char} (rendered : render (utf8Value v) = utf8 text)
    (reads : JsonText text v) : Clean v := by
  rw [render, renderValue_utf8] at rendered
  rw [← utf8_injective rendered] at reads
  exact (jsonText_render_iff v).1 reads

/-- **The response is a JSON text that stands for the rendered value and for no other, exactly when no key needs
escaping and no string value has a control character that the renderer leaves as it is.** -/
theorem render_denotes_iff :
    (∃ text, render (utf8Value v) = utf8 text ∧ ∀ other, JsonText text other ↔ other = v) ↔ Clean v := by
  constructor
  · rintro ⟨text, rendered, reads⟩
    exact clean_of_text rendered ((reads v).2 rfl)
  · intro clean
    refine ⟨renderValue id v, renderValue_utf8 v, fun other => ?_⟩
    have reads := (jsonText_render_iff v).2 clean
    constructor
    · intro reads'
      exact reads'.unique reads
    · rintro rfl
      exact reads

/-- A road name with the control character U+0001. -/
theorem render_controlCharacter :
    ¬ ∃ text, render (utf8Value (.object [(['n', 'a', 'm', 'e'], .string ['\x01'])])) = utf8 text ∧
      ∀ other, JsonText text other ↔ other = .object [(['n', 'a', 'm', 'e'], .string ['\x01'])] := by
  rintro ⟨text, rendered, reads⟩
  have clean := clean_of_text rendered ((reads _).2 rfl)
  have writable : Writable '\x01' := clean.2.1 '\x01' mem_cons_self
  exact absurd writable (by decide)

end Osrm.JsonRenderer
