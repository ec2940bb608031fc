import Mathlib.Data.List.Basic

/-!
# The grammar of JSON texts

The texts of RFC 8259 and the values they stand for: objects, arrays, strings, `true`, `false` and
`null`; numbers are left out. Each production is a relation between the text in front of it, what
it stands for, and the text that it leaves, with blanks allowed around the structural characters.
The grammar is unambiguous: no text stands for two values.
-/

namespace Osrm.Lib.Json

/-- JSON values without numbers, with strings of any kind. -/
inductive Value (σ : Type) : Type
  | string (s : σ)
  | object (members : List (σ × Value σ))
  | array (elements : List (Value σ))
  | jsonTrue
  | jsonFalse
  | null

/-- Blank, tab, line feed and carriage return. -/
def IsBlank (c : Char) : Prop := c = ' ' ∨ c = '\t' ∨ c = '\n' ∨ c = '\r'

inductive Ws : List Char → List Char → Prop
  | stop {t : List Char} : Ws t t
  | skip {c : Char} {t r : List Char} (blank : IsBlank c) (rest : Ws t r) : Ws (c :: t) r

/-- The character that a letter stands for behind a backslash. -/
def shortEscape : Char → Option Char
  | '"' => some '"'
  | '\\' => some '\\'
  | '/' => some '/'
  | 'b' => some '\x08'
  | 'f' => some '\x0c'
  | 'n' => some '\n'
  | 'r' => some '\r'
  | 't' => some '\t'
  | _ => none

def hexDigit (c : Char) : Option ℕ :=
  if '0' ≤ c ∧ c ≤ '9' then some (c.toNat - 48)
  else if 'a' ≤ c ∧ c ≤ 'f' then some (c.toNat - 87)
  else if 'A' ≤ c ∧ c ≤ 'F' then some (c.toNat - 55)
  else none

def hex4 (a b c d : Char) : Option ℕ := do
  let w ← hexDigit a
  let x ← hexDigit b
  let y ← hexDigit c
  let z ← hexDigit d
  return ((w * 16 + x) * 16 + y) * 16 + z

/-- `char`: one character of a string. -/
inductive Code : List Char → Char → List Char → Prop
  | unescaped {c : Char} {r : List Char} (printable : 0x20 ≤ c.toNat) (noQuote : c ≠ '"') (noBackslash : c ≠ '\\') :
      Code (c :: r) c r
  | short {c e : Char} {r : List Char} (known : shortEscape e = some c) : Code ('\\' :: e :: r) c r
  | hex {c a₁ a₂ a₃ a₄ : Char} {r : List Char} (value : hex4 a₁ a₂ a₃ a₄ = some c.toNat) :
      Code ('\\' :: 'u' :: a₁ :: a₂ :: a₃ :: a₄ :: r) c r
  | surrogates {c a₁ a₂ a₃ a₄ b₁ b₂ b₃ b₄ : Char} {r : List Char} {high low : ℕ} (first : hex4 a₁ a₂ a₃ a₄ = some high)
      (second : hex4 b₁ b₂ b₃ b₄ = some low) (isHigh : 0xd800 ≤ high ∧ high < 0xdc00) (isLow : 0xdc00 ≤ low ∧ low < 0xe000)
      (value : c.toNat = 0x10000 + (high - 0xd800) * 0x400 + (low - 0xdc00)) :
      Code ('\\' :: 'u' :: a₁ :: a₂ :: a₃ :: a₄ :: '\\' :: 'u' :: b₁ :: b₂ :: b₃ :: b₄ :: r) c r

/-- The characters of a string and the quotation mark behind them. -/
inductive Content : List Char → List Char → List Char → Prop
  | close {r : List Char} : Content ('"' :: r) [] r
  | char {t t' s r : List Char} {c : Char} (code : Code t c t') (rest : Content t' s r) : Content t (c :: s) r

mutual

/-- `value` -/
inductive Denotes : List Char → Value (List Char) → List Char → Prop
  | string {t s r : List Char} (content : Content t s r) : Denotes ('"' :: t) (.string s) r
  | emptyObject {t r : List Char} (blank : Ws t ('\x7d' :: r)) : Denotes ('\x7b' :: t) (.object []) r
  | object {t t' r : List Char} {m : List Char × Value (List Char)} {ms : List (List Char × Value (List Char))}
      (first : Member t m t') (rest : MembersEnd t' ms r) : Denotes ('\x7b' :: t) (.object (m :: ms)) r
  | emptyArray {t r : List Char} (blank : Ws t (']' :: r)) : Denotes ('[' :: t) (.array []) r
  | array {t t' r : List Char} {v : Value (List Char)} {vs : List (Value (List Char))}
      (first : Element t v t') (rest : ElementsEnd t' vs r) : Denotes ('[' :: t) (.array (v :: vs)) r
  | jsonTrue {r : List Char} : Denotes ('t' :: 'r' :: 'u' :: 'e' :: r) .jsonTrue r
  | jsonFalse {r : List Char} : Denotes ('f' :: 'a' :: 'l' :: 's' :: 'e' :: r) .jsonFalse r
  | null {r : List Char} : Denotes ('n' :: 'u' :: 'l' :: 'l' :: r) .null r

/-- A value between blanks. -/
inductive Element : List Char → Value (List Char) → List Char → Prop
  | mk {t t' t'' r : List Char} {v : Value (List Char)} (before : Ws t t') (value : Denotes t' v t'') (after : Ws t'' r) :
      Element t v r

/-- What follows an element of an array. -/
inductive ElementsEnd : List Char → List (Value (List Char)) → List Char → Prop
  | close {r : List Char} : ElementsEnd (']' :: r) [] r
  | more {t t' r : List Char} {v : Value (List Char)} {vs : List (Value (List Char))} (next : Element t v t')
      (rest : ElementsEnd t' vs r) : ElementsEnd (',' :: t) (v :: vs) r

/-- `member`, between blanks. -/
inductive Member : List Char → List Char × Value (List Char) → List Char → Prop
  | mk {t t' t'' t₃ k r : List Char} {v : Value (List Char)} (before : Ws t ('"' :: t')) (key : Content t' k t'')
      (after : Ws t'' (':' :: t₃)) (value : Element t₃ v r) : Member t (k, v) r

/-- What follows a member of an object. -/
inductive MembersEnd : List Char → List (List Char × Value (List Char)) → List Char → Prop
  | close {r : List Char} : MembersEnd ('\x7d' :: r) [] r
  | more {t t' r : List Char} {m : List Char × Value (List Char)} {ms : List (List Char × Value (List Char))}
      (next : Member t m t') (rest : MembersEnd t' ms r) : MembersEnd (',' :: t) (m :: ms) r

end

/-- `JSON-text`: the whole text stands for the value. -/
def JsonText (text : List Char) (v : Value (List Char)) : Prop := Element text v []

/-! ### The grammar is unambiguous -/

variable {c c' : Char} {t r r' : List Char} {v v' : Value (List Char)}

/-- The text is at an end or goes on with something else than a blank. -/
def Stops (t : List Char) : Prop := ∀ c r, t = c :: r → ¬ IsBlank c

theorem stops_cons (notBlank : ¬ IsBlank c := by simp [IsBlank]) : Stops (c :: r) := by
  intro c' r' same
  cases same
  exact notBlank

theorem ws_eq_of_stops (stops : Stops t) (ws : Ws t r) : r = t := by
  cases ws with
  | stop => rfl
  | skip blank _ => exact absurd blank (stops _ _ rfl)

theorem ws_unique (ws : Ws t r) (ws' : Ws t r') (stops : Stops r) (stops' : Stops r') : r = r' := by
  induction ws with
  | stop => exact (ws_eq_of_stops stops ws').symm
  | skip blank _ ih =>
    cases ws' with
    | stop => exact absurd blank (stops' _ _ rfl)
    | skip _ rest' => exact ih rest' stops

theorem not_surrogate (c : Char) : ¬ (0xd800 ≤ c.toNat ∧ c.toNat < 0xdc00) := by
  have valid := c.valid
  intro surrogate
  simp only [Char.toNat] at surrogate
  omega

theorem char_eq_of_toNat (same : c.toNat = c'.toNat) : c = c' := by
  rw [← Char.ofNat_toNat c, ← Char.ofNat_toNat c', same]

theorem code_unique (code : Code t c r) (code' : Code t c' r') : c = c' ∧ r = r' := by
  cases code with
  | unescaped printable noQuote noBackslash =>
    cases code' with
    | unescaped => exact ⟨rfl, rfl⟩
    | short => exact absurd rfl noBackslash
    | hex => exact absurd rfl noBackslash
    | surrogates => exact absurd rfl noBackslash
  | short known =>
    cases code' with
    | unescaped _ _ noBackslash => exact absurd rfl noBackslash
    | short known' => exact ⟨Option.some_inj.1 (known.symm.trans known'), rfl⟩
    | hex => cases known
    | surrogates => cases known
  | hex value =>
    cases code' with
    | unescaped _ _ noBackslash => exact absurd rfl noBackslash
    | short known' => cases known'
    | hex value' => exact ⟨char_eq_of_toNat (Option.some_inj.1 (value.symm.trans value')), rfl⟩
    | surrogates first' _ isHigh' _ _ =>
      cases value.symm.trans first'
      exact absurd isHigh' (not_surrogate _)
  | surrogates first second isHigh isLow value =>
    cases code' with
    | unescaped _ _ noBackslash => exact absurd rfl noBackslash
    | short known' => cases known'
    | hex value' =>
      cases first.symm.trans value'
      exact absurd isHigh (not_surrogate _)
    | surrogates first' second' _ _ value' =>
      cases first.symm.trans first'
      cases second.symm.trans second'
      exact ⟨char_eq_of_toNat (value.trans value'.symm), rfl⟩

theorem not_code_quote : ¬ Code ('"' :: t) c r := by
  intro code
  cases code with
  | unescaped _ noQuote _ => exact noQuote rfl

theorem content_cons_iff {s r : List Char} : Content t (c :: s) r ↔ ∃ t', Code t c t' ∧ Content t' s r := by
  constructor
  · intro content
    cases content with
    | char code rest => exact ⟨_, code, rest⟩
  · rintro ⟨t', code, rest⟩
    exact .char code rest

theorem content_unique {s s' r r' : List Char} (content : Content t s r) (content' : Content t s' r') : s = s' ∧ r = r' := by
  induction content generalizing s' with
  | close =>
    cases content' with
    | close => exact ⟨rfl, rfl⟩
    | char code' _ => exact absurd code' not_code_quote
  | char code _ ih =>
    cases content' with
    | close => exact absurd code not_code_quote
    | char code' rest' =>
      obtain ⟨rfl, rfl⟩ := code_unique code code'
      obtain ⟨rfl, same⟩ := ih rest'
      exact ⟨rfl, same⟩

theorem Denotes.stops (denotes : Denotes t v r) : Stops t := by
  cases denotes <;> exact stops_cons

theorem ElementsEnd.stops {vs : List (Value (List Char))} (ends : ElementsEnd t vs r) : Stops t := by
  cases ends <;> exact stops_cons

theorem MembersEnd.stops {ms : List (List Char × Value (List Char))} (ends : MembersEnd t ms r) : Stops t := by
  cases ends <;> exact stops_cons

/-- A value has no other reading. -/
def Unique (v : Value (List Char)) : Prop :=
  ∀ (t r r' : List Char) (v' : Value (List Char)), Denotes t v r → Denotes t v' r' → v = v' ∧ r = r'

theorem Unique.element (unique : Unique v) {t r r' : List Char} (element : Element t v r)
    (element' : Element t v' r') (stops : Stops r) (stops' : Stops r') : v = v' ∧ r = r' := by
  obtain ⟨before, value, after⟩ := element
  obtain ⟨before', value', after'⟩ := element'
  obtain rfl := ws_unique before before' value.stops value'.stops
  obtain ⟨rfl, rfl⟩ := unique _ _ _ _ value value'
  exact ⟨rfl, ws_unique after after' stops stops'⟩

theorem Unique.member {k : List Char} (unique : Unique v) {t r r' : List Char}
    {m' : List Char × Value (List Char)} (member : Member t (k, v) r) (member' : Member t m' r') (stops : Stops r)
    (stops' : Stops r') : (k, v) = m' ∧ r = r' := by
  obtain ⟨before, key, after, value⟩ := member
  obtain ⟨before', key', after', value'⟩ := member'
  have quotes := ws_unique before before' stops_cons stops_cons
  cases quotes
  obtain ⟨rfl, rfl⟩ := content_unique key key'
  have colons := ws_unique after after' stops_cons stops_cons
  cases colons
  obtain ⟨rfl, same⟩ := unique.element value value' stops stops'
  exact ⟨rfl, same⟩

theorem not_element_of_close (blank : Ws t (']' :: r)) : ¬ Element t v r' := by
  rintro ⟨before, value, -⟩
  have same := ws_unique before blank value.stops stops_cons
  subst same
  cases value

theorem not_member_of_close {m : List Char × Value (List Char)} (blank : Ws t ('\x7d' :: r)) :
    ¬ Member t m r' := by
  rintro ⟨before, -, -, -⟩
  have same := ws_unique before blank stops_cons stops_cons
  exact absurd (List.cons.inj same).1 (by decide)

mutual

theorem denotes_unique : ∀ v, Unique v
  | .string s => by
    intro t r r' v' denotes denotes'
    cases denotes with
    | string content =>
      cases denotes' with
      | string content' =>
        obtain ⟨rfl, same⟩ := content_unique content content'
        exact ⟨rfl, same⟩
  | .object [] => by
    intro t r r' v' denotes denotes'
    cases denotes with
    | emptyObject blank =>
      cases denotes' with
      | emptyObject blank' =>
        have same := ws_unique blank blank' stops_cons stops_cons
        exact ⟨rfl, (List.cons.inj same).2⟩
      | object first' _ => exact absurd first' (not_member_of_close blank)
  | .object ((k, v) :: ms) => by
    intro t r r' v' denotes denotes'
    cases denotes with
    | object first rest =>
      cases denotes' with
      | emptyObject blank' => exact absurd first (not_member_of_close blank')
      | object first' rest' =>
        obtain ⟨rfl, rfl⟩ := (denotes_unique v).member first first' rest.stops rest'.stops
        obtain ⟨rfl, same⟩ := membersEnd_unique ms rest rest'
        exact ⟨rfl, same⟩
  | .array [] => by
    intro t r r' v' denotes denotes'
    cases denotes with
    | emptyArray blank =>
      cases denotes' with
      | emptyArray blank' =>
        have same := ws_unique blank blank' stops_cons stops_cons
        exact ⟨rfl, (List.cons.inj same).2⟩
      | array first' _ => exact absurd first' (not_element_of_close blank)
  | .array (v :: vs) => by
    intro t r r' v' denotes denotes'
    cases denotes with
    | array first rest =>
      cases denotes' with
      | emptyArray blank' => exact absurd first (not_element_of_close blank')
      | array first' rest' =>
        obtain ⟨rfl, rfl⟩ := (denotes_unique v).element first first' rest.stops rest'.stops
        obtain ⟨rfl, same⟩ := elementsEnd_unique vs rest rest'
        exact ⟨rfl, same⟩
  | .jsonTrue | .jsonFalse | .null => by
    intro t r r' v' denotes denotes'
    cases denotes
    cases denotes'
    exact ⟨rfl, rfl⟩

theorem elementsEnd_unique : ∀ (vs : List (Value (List Char))) {t r r' : List Char} {vs' : List (Value (List Char))},
    ElementsEnd t vs r → ElementsEnd t vs' r' → vs = vs' ∧ r = r'
  | [] => by
    intro ends ends'
    cases ends
    cases ends'
    exact ⟨rfl, rfl⟩
  | v :: vs => by
    intro ends ends'
    cases ends with
    | more next rest =>
      cases ends' with
      | more next' rest' =>
        obtain ⟨rfl, rfl⟩ := (denotes_unique v).element next next' rest.stops rest'.stops
        obtain ⟨rfl, same⟩ := elementsEnd_unique vs rest rest'
        exact ⟨rfl, same⟩

theorem membersEnd_unique : ∀ (ms : List (List Char × Value (List Char))) {t r r' : List Char}
    {ms' : List (List Char × Value (List Char))}, MembersEnd t ms r → MembersEnd t ms' r' → ms = ms' ∧ r = r'
  | [] => by
    intro ends ends'
    cases ends
    cases ends'
    exact ⟨rfl, rfl⟩
  | (k, v) :: ms => by
    intro ends ends'
    cases ends with
    | more next rest =>
      cases ends' with
      | more next' rest' =>
        obtain ⟨rfl, rfl⟩ := (denotes_unique v).member next next' rest.stops rest'.stops
        obtain ⟨rfl, same⟩ := membersEnd_unique ms rest rest'
        exact ⟨rfl, same⟩

end

/-- **No text stands for two values.** -/
theorem JsonText.unique {text : List Char} (reads : JsonText text v) (reads' : JsonText text v') :
    v = v' :=
  ((denotes_unique v).element reads reads' (fun _ _ none => nomatch none) (fun _ _ none => nomatch none)).1

end Osrm.Lib.Json
