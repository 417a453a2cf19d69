import Mathlib.Data.List.Perm.Basic
import Sashiko.Json

/-! The texts of JSON values. A loose text may have control characters in its string literals as
they are; in a strict one they are escaped. Which number a numeral stands for is left open. -/

namespace Sashiko

namespace JsonText

/-! ### String literals -/

def isJsonBlank (c : Char) : Bool := c = ' ' || c = '\t' || c = '\n' || c = '\r'

def Blank (t : List Char) : Prop := ∀ c ∈ t, isJsonBlank c = true

/-- What a backslash and one character stand for. -/
def shortEscapes : List (Char × Char) :=
  [('"', '"'), ('\\', '\\'), ('/', '/'), ('b', '\x08'), ('f', '\x0c'), ('n', '\n'), ('r', '\r'),
    ('t', '\t')]

def hexValue (c : Char) : Option ℕ :=
  if '0'.toNat ≤ c.toNat ∧ c.toNat ≤ '9'.toNat then some (c.toNat - '0'.toNat)
  else if 'a'.toNat ≤ c.toNat ∧ c.toNat ≤ 'f'.toNat then some (c.toNat - 'a'.toNat + 10)
  else if 'A'.toNat ≤ c.toNat ∧ c.toNat ≤ 'F'.toNat then some (c.toNat - 'A'.toNat + 10)
  else none

/-- What four hexadecimal digits stand for. -/
def codeUnit : List Char → Option ℕ
  | [a, b, c, d] => do
    return 4096 * (← hexValue a) + 256 * (← hexValue b) + 16 * (← hexValue c) + (← hexValue d)
  | _ => none

/-- What stands between the quotes, and the characters it stands for. -/
inductive LiteralText (loose : Bool) : List Char → List Char → Prop
  | nil : LiteralText loose [] []
  | plain {c t s} : c ≠ '"' → c ≠ '\\' → (loose = false → 32 ≤ c.toNat) →
      LiteralText loose t s → LiteralText loose (c :: t) (c :: s)
  | escape {e c t s} : (e, c) ∈ shortEscapes → LiteralText loose t s →
      LiteralText loose ('\\' :: e :: t) (c :: s)
  | codePoint {digits n t s} : codeUnit digits = some n → n.isValidChar → LiteralText loose t s →
      LiteralText loose ('\\' :: 'u' :: (digits ++ t)) (Char.ofNat n :: s)
  | surrogates {high low a b t s} :
      codeUnit high = some a → 0xD800 ≤ a ∧ a < 0xDC00 →
      codeUnit low = some b → 0xDC00 ≤ b ∧ b < 0xE000 → LiteralText loose t s →
      LiteralText loose ('\\' :: 'u' :: (high ++ '\\' :: 'u' :: (low ++ t)))
        (Char.ofNat (0x10000 + 0x400 * (a - 0xD800) + (b - 0xDC00)) :: s)

/-! ### Values -/

/-- A value, what stands between brackets, or what stands between braces. -/
inductive Node where
  | value (j : Json)
  | items (js : List Json)
  | members (fields : List (String × Json))

def IsNumeral (t : List Char) : Prop :=
  t ≠ [] ∧ ∀ c ∈ t, c.isDigit = true ∨ c ∈ ['+', '-', '.', 'e', 'E']

def isNumber : Json → Bool
  | .int _ => true
  | .float _ => true
  | _ => false

variable (numeral : List Char → Json → Prop) (loose : Bool)

/-- The texts of a value, with blanks between its parts. The entries of an object come in any
order. -/
inductive Writes : List Char → Node → Prop
  | null : Writes "null".toList (.value .null)
  | boolFalse : Writes "false".toList (.value (.bool false))
  | boolTrue : Writes "true".toList (.value (.bool true))
  | number {t j} : IsNumeral t → numeral t j → isNumber j = true → Writes t (.value j)
  | str {t s} : LiteralText loose t s →
      Writes ('"' :: (t ++ ['"'])) (.value (.str (String.ofList s)))
  | emptyArr {a} : Blank a → Writes ('[' :: (a ++ [']'])) (.value (.arr []))
  | arr {t js} : Writes t (.items js) → Writes ('[' :: (t ++ [']'])) (.value (.arr js))
  | emptyObj {a} : Blank a → Writes ('\x7b' :: (a ++ ['\x7d'])) (.value (.obj []))
  | obj {t written fields} : Writes t (.members written) → fields.Perm written →
      Writes ('\x7b' :: (t ++ ['\x7d'])) (.value (.obj fields))
  | lastItem {a t b j} : Blank a → Writes t (.value j) → Blank b →
      Writes (a ++ (t ++ b)) (.items [j])
  | item {a t b j rest js} : Blank a → Writes t (.value j) → Blank b → Writes rest (.items js) →
      Writes (a ++ (t ++ (b ++ ',' :: rest))) (.items (j :: js))
  | lastMember {a key k b c t d j} : Blank a → LiteralText loose key k → Blank b → Blank c →
      Writes t (.value j) → Blank d →
      Writes (a ++ ('"' :: (key ++ ['"']) ++ (b ++ ':' :: (c ++ (t ++ d)))))
        (.members [(String.ofList k, j)])
  | member {a key k b c t d j rest fields} : Blank a → LiteralText loose key k → Blank b → Blank c →
      Writes t (.value j) → Blank d → Writes rest (.members fields) →
      Writes (a ++ ('"' :: (key ++ ['"']) ++ (b ++ ':' :: (c ++ (t ++ (d ++ ',' :: rest))))))
        (.members ((String.ofList k, j) :: fields))

/-- A JSON text: a value with blanks around it. -/
def IsText (t : List Char) (j : Json) : Prop :=
  ∃ before o after, t = before ++ (o ++ after) ∧ Blank before ∧ Blank after ∧
    Writes numeral false o (.value j)

section Shape
variable {numeral : List Char → Json → Prop} {loose : Bool} {t : List Char} {node : Node}

theorem Blank.ne {a : List Char} (h : Blank a) {c : Char} (hc : c ∈ a) :
    c ≠ '"' ∧ c ≠ '\\' ∧ c ≠ '\x7b' ∧ c ≠ '\x7d' := by
  have hblank := h c hc
  refine ⟨?_, ?_, ?_, ?_⟩ <;> rintro rfl <;> exact absurd hblank (by decide)

theorem IsNumeral.ne (h : IsNumeral t) {c : Char} (hc : c ∈ t) :
    c ≠ '"' ∧ c ≠ '\x7b' ∧ c ≠ '\x7d' := by
  have hchar := h.2 c hc
  refine ⟨?_, ?_, ?_⟩ <;> rintro rfl <;> exact absurd hchar (by decide)

theorem hexValue_ne {c : Char} {n : ℕ} (h : hexValue c = some n) :
    c ≠ '"' ∧ c ≠ '\\' ∧ 32 ≤ c.toNat := by
  refine ⟨?_, ?_, ?_⟩
  · rintro rfl
    rw [show hexValue '"' = none by decide] at h
    cases h
  · rintro rfl
    rw [show hexValue '\\' = none by decide] at h
    cases h
  · have hzero : '0'.toNat = 48 := by decide
    have ha : 'a'.toNat = 97 := by decide
    have hA : 'A'.toNat = 65 := by decide
    unfold hexValue at h
    split_ifs at h <;> omega

theorem codeUnit_ne {digits : List Char} {n : ℕ} (h : codeUnit digits = some n) :
    ∀ c ∈ digits, c ≠ '"' ∧ c ≠ '\\' ∧ 32 ≤ c.toNat := by
  match digits, h with
  | [a, b, c, d], h =>
    simp only [codeUnit, Option.bind_eq_bind, Option.bind_eq_some_iff] at h
    obtain ⟨na, ha, nb, hb, nc, hc, nd, hd, -⟩ := h
    intro x hx
    simp only [List.mem_cons, List.not_mem_nil, or_false] at hx
    rcases hx with rfl | rfl | rfl | rfl
    · exact hexValue_ne ha
    · exact hexValue_ne hb
    · exact hexValue_ne hc
    · exact hexValue_ne hd

/-- What holds of single characters, of literals and of braces around, and of two texts together,
holds of every text. -/
theorem Writes.closed {P : List Char → Prop} (hnil : P [])
    (happend : ∀ {a b}, P a → P b → P (a ++ b))
    (hchar : ∀ c, c ≠ '"' → c ≠ '\x7b' → c ≠ '\x7d' → P [c])
    (hliteral : ∀ {t s}, LiteralText loose t s → P ('"' :: (t ++ ['"'])))
    (hbraces : ∀ {t}, P t → P ('\x7b' :: (t ++ ['\x7d']))) (h : Writes numeral loose t node) :
    P t := by
  have hchars : ∀ {a : List Char}, (∀ c ∈ a, c ≠ '"' ∧ c ≠ '\x7b' ∧ c ≠ '\x7d') → P a := by
    intro a
    induction a with
    | nil => exact fun _ => hnil
    | cons c a ih =>
      intro ha
      obtain ⟨hquote, hopen, hclose⟩ := ha c List.mem_cons_self
      exact happend (hchar c hquote hopen hclose) (ih fun x hx => ha x (List.mem_cons_of_mem _ hx))
  have hblank : ∀ {a : List Char}, Blank a → P a := fun ha =>
    hchars fun c hc => ⟨(ha.ne hc).1, (ha.ne hc).2.2⟩
  have hcons : ∀ {c t}, c ≠ '"' → c ≠ '\x7b' → c ≠ '\x7d' → P t → P (c :: t) :=
    fun hquote hopen hclose ht => happend (hchar _ hquote hopen hclose) ht
  have hcolon {t} : P t → P (':' :: t) := hcons (by decide) (by decide) (by decide)
  have hcomma {t} : P t → P (',' :: t) := hcons (by decide) (by decide) (by decide)
  have hbrackets {t} (ht : P t) : P ('[' :: (t ++ [']'])) :=
    hcons (by decide) (by decide) (by decide)
      (happend ht (hchar ']' (by decide) (by decide) (by decide)))
  induction h with
  | null | boolFalse | boolTrue =>
    exact hchars fun c hc => by
      simp only [String.reduceToList, List.mem_cons, List.not_mem_nil, or_false] at hc
      rcases hc with rfl | rfl | rfl | rfl | rfl <;> decide
  | number h _ _ => exact hchars fun c hc => h.ne hc
  | str h => exact hliteral h
  | emptyArr ha => exact hbrackets (hblank ha)
  | arr _ ih => exact hbrackets ih
  | emptyObj ha => exact hbraces (hblank ha)
  | obj _ _ ih => exact hbraces ih
  | lastItem ha _ hb ih => exact happend (hblank ha) (happend ih (hblank hb))
  | item ha _ hb _ ih ihrest =>
    exact happend (hblank ha) (happend ih (happend (hblank hb) (hcomma ihrest)))
  | lastMember ha hkey hb hc _ hd ih =>
    exact happend (hblank ha) (happend (hliteral hkey)
      (happend (hblank hb) (hcolon (happend (hblank hc) (happend ih (hblank hd))))))
  | member ha hkey hb hc _ hd _ ih ihrest =>
    exact happend (hblank ha) (happend (hliteral hkey) (happend (hblank hb)
      (hcolon (happend (hblank hc) (happend ih (happend (hblank hd) (hcomma ihrest)))))))

/-- An object stands between braces. -/
theorem Writes.exists_braces {j : Json} (h : Writes numeral loose t (.value j))
    (hj : j.isObject = true) :
    ∃ inner, t = '\x7b' :: (inner ++ ['\x7d']) ∧
      (Blank inner ∨ ∃ fields, Writes numeral loose inner (.members fields)) := by
  cases h with
  | number _ _ hnumber =>
    cases j with
    | obj fields => cases hnumber
    | _ => cases hj
  | emptyObj ha => exact ⟨_, rfl, .inl ha⟩
  | obj ht _ => exact ⟨_, rfl, .inr ⟨_, ht⟩⟩
  | _ => cases hj

end Shape

end JsonText

end Sashiko
