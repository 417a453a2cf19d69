import Mathlib.Algebra.Group.Int.Defs
import Sashiko.Text
import Mathlib.Tactic.Common

/-! `serde_json::Value`. An object is the list of its entries in iteration order; a number
that is not an integer is kept as its printed text. -/

namespace Sashiko

inductive Json where
  | null
  | bool (b : Bool)
  | int (n : Int)
  | float (text : String)
  | str (s : String)
  | arr (items : List Json)
  | obj (fields : List (String × Json))
  deriving Repr, Inhabited

namespace Json

mutual
def decEq : (a b : Json) → Decidable (a = b)
  | .null, .null => .isTrue rfl
  | .bool a, .bool b => if h : a = b then .isTrue (by rw [h]) else .isFalse (by simp [h])
  | .int a, .int b => if h : a = b then .isTrue (by rw [h]) else .isFalse (by simp [h])
  | .float a, .float b => if h : a = b then .isTrue (by rw [h]) else .isFalse (by simp [h])
  | .str a, .str b => if h : a = b then .isTrue (by rw [h]) else .isFalse (by simp [h])
  | .arr a, .arr b => match decEqItems a b with
    | .isTrue h => .isTrue (by rw [h])
    | .isFalse h => .isFalse (by simp [h])
  | .obj a, .obj b => match decEqFields a b with
    | .isTrue h => .isTrue (by rw [h])
    | .isFalse h => .isFalse (by simp [h])
  | .null, .bool _ | .null, .int _ | .null, .float _ | .null, .str _ | .null, .arr _
  | .null, .obj _ | .bool _, .null | .bool _, .int _ | .bool _, .float _ | .bool _, .str _
  | .bool _, .arr _ | .bool _, .obj _ | .int _, .null | .int _, .bool _ | .int _, .float _
  | .int _, .str _ | .int _, .arr _ | .int _, .obj _ | .float _, .null | .float _, .bool _
  | .float _, .int _ | .float _, .str _ | .float _, .arr _ | .float _, .obj _ | .str _, .null
  | .str _, .bool _ | .str _, .int _ | .str _, .float _ | .str _, .arr _ | .str _, .obj _
  | .arr _, .null | .arr _, .bool _ | .arr _, .int _ | .arr _, .float _ | .arr _, .str _
  | .arr _, .obj _ | .obj _, .null | .obj _, .bool _ | .obj _, .int _ | .obj _, .float _
  | .obj _, .str _ | .obj _, .arr _ => .isFalse (by simp)
def decEqItems : (a b : List Json) → Decidable (a = b)
  | [], [] => .isTrue rfl
  | [], _ :: _ | _ :: _, [] => .isFalse (by simp)
  | x :: xs, y :: ys => match decEq x y with
    | .isFalse h => .isFalse (by simp [h])
    | .isTrue h => match decEqItems xs ys with
      | .isTrue hs => .isTrue (by rw [h, hs])
      | .isFalse hs => .isFalse (by simp [hs])
def decEqFields : (a b : List (String × Json)) → Decidable (a = b)
  | [], [] => .isTrue rfl
  | [], _ :: _ | _ :: _, [] => .isFalse (by simp)
  | (k, x) :: xs, (l, y) :: ys =>
    if hk : k = l then match decEq x y with
      | .isFalse h => .isFalse (by simp [h])
      | .isTrue h => match decEqFields xs ys with
        | .isTrue hs => .isTrue (by rw [hk, h, hs])
        | .isFalse hs => .isFalse (by simp [hs])
    else .isFalse (by simp [hk])
end

instance : DecidableEq Json := decEq

def hexDigit (n : ℕ) : Char := "0123456789abcdef".toList.getD n '0'

def escapeChar (c : Char) : String :=
  if c = '"' then "\\\""
  else if c = '\\' then "\\\\"
  else if c = '\n' then "\\n"
  else if c = '\r' then "\\r"
  else if c = '\t' then "\\t"
  else if c.toNat = 8 then "\\b"
  else if c.toNat = 12 then "\\f"
  else if c.toNat < 32 then
    "\\u00" ++ String.singleton (hexDigit (c.toNat / 16)) ++
      String.singleton (hexDigit (c.toNat % 16))
  else String.singleton c

def quote (s : String) : String := "\"" ++ String.join (s.toList.map escapeChar) ++ "\""

mutual
/-- `Value::to_string`: compact JSON. -/
def render : Json → String
  | .null => "null"
  | .bool b => if b then "true" else "false"
  | .int n => toString n
  | .float text => text
  | .str s => quote s
  | .arr items => "[" ++ String.intercalate "," (renderItems items) ++ "]"
  | .obj fields => "\x7b" ++ String.intercalate "," (renderFields fields) ++ "\x7d"
def renderItems : List Json → List String
  | [] => []
  | x :: xs => render x :: renderItems xs
def renderFields : List (String × Json) → List String
  | [] => []
  | (k, x) :: xs => (quote k ++ ":" ++ render x) :: renderFields xs
end

/-! ### Access -/

/-- `Value::get` with a key. -/
def get? (key : String) : Json → Option Json
  | .obj fields => fields.lookup key
  | _ => none

def asStr : Json → Option String
  | .str s => some s
  | _ => none

def asArray : Json → Option (List Json)
  | .arr items => some items
  | _ => none

def asBool : Json → Option Bool
  | .bool b => some b
  | _ => none

/-- `Value::as_u64` -/
def asU64 : Json → Option ℕ
  | .int n => if 0 ≤ n ∧ n < 2 ^ 64 then some n.toNat else none
  | _ => none

/-- `Value::as_i64` -/
def asI64 : Json → Option Int
  | .int n => if -2 ^ 63 ≤ n ∧ n < 2 ^ 63 then some n else none
  | _ => none

def isObject : Json → Bool
  | .obj _ => true
  | _ => false

def getStr (key : String) (j : Json) : Option String := (j.get? key).bind asStr

def getArray (key : String) (j : Json) : Option (List Json) := (j.get? key).bind asArray

/-- `Map::insert`, which keeps the keys in order. -/
def insertField (key : String) (value : Json) : List (String × Json) → List (String × Json)
  | [] => [(key, value)]
  | (k, v) :: rest =>
    if k = key then (key, value) :: rest
    else if textLt key k then (key, value) :: (k, v) :: rest
    else (k, v) :: insertField key value rest

def insert (j : Json) (key : String) (value : Json) : Json :=
  match j with
  | .obj fields => .obj (insertField key value fields)
  | j => j

/-- `Map::remove` -/
def remove (key : String) : Json → Json
  | .obj fields => .obj (fields.filter (·.1 ≠ key))
  | j => j

def strings (items : List String) : Json := .arr (items.map .str)

theorem lookup_cons (k₀ : String) (v₀ : Json) (rest : List (String × Json)) (k : String) :
    ((k₀, v₀) :: rest).lookup k = if k = k₀ then some v₀ else rest.lookup k := by
  by_cases h : k = k₀
  · simp [h]
  · have hne : (k == k₀) = false := beq_false_of_ne h
    rw [List.lookup_cons, hne, if_neg h]

theorem lookup_insertField (key k : String) (value : Json) (fields : List (String × Json)) :
    (insertField key value fields).lookup k =
      if k = key then some value else fields.lookup k := by
  induction fields with
  | nil => exact lookup_cons key value [] k
  | cons f rest ih =>
    obtain ⟨k₀, v₀⟩ := f
    unfold insertField
    by_cases heq : k₀ = key
    · subst heq
      rw [if_pos rfl, lookup_cons, lookup_cons]
      by_cases h : k = k₀ <;> simp [h]
    · rw [if_neg heq]
      by_cases hlt : textLt key k₀ = true
      · rw [if_pos hlt, lookup_cons]
      · rw [if_neg hlt, lookup_cons, lookup_cons, ih]
        by_cases h : k = key
        · have hne : ¬key = k₀ := fun hk => heq hk.symm
          simp [h, hne]
        · simp [h]

theorem lookup_filter_ne {key k : String} (h : k ≠ key) (fields : List (String × Json)) :
    (fields.filter (·.1 ≠ key)).lookup k = fields.lookup k := by
  induction fields with
  | nil => rfl
  | cons f rest ih =>
    obtain ⟨k₀, v₀⟩ := f
    by_cases hk : k₀ = key
    · subst hk
      rw [List.filter_cons_of_neg (by simp), ih, lookup_cons, if_neg h]
    · rw [List.filter_cons_of_pos (by simpa using hk), lookup_cons, lookup_cons, ih]

@[simp] theorem get?_insert_ne {key k : String} (h : k ≠ key) (value j : Json) :
    (j.insert key value).get? k = j.get? k := by
  cases j with
  | obj fields => simp [insert, get?, lookup_insertField, h]
  | _ => rfl

@[simp] theorem get?_insert_self {j : Json} (hj : j.isObject = true) (key : String)
    (value : Json) : (j.insert key value).get? key = some value := by
  cases j with
  | obj fields => simp [insert, get?, lookup_insertField]
  | _ => cases hj

@[simp] theorem get?_remove_ne {key k : String} (h : k ≠ key) (j : Json) :
    (j.remove key).get? k = j.get? k := by
  cases j with
  | obj fields => exact lookup_filter_ne h fields
  | _ => rfl

@[simp] theorem isObject_insert (key : String) (value j : Json) :
    (j.insert key value).isObject = j.isObject := by
  cases j <;> rfl

@[simp] theorem isObject_remove (key : String) (j : Json) :
    (j.remove key).isObject = j.isObject := by
  cases j <;> rfl

theorem isObject_of_get? {key : String} {j v : Json} (h : j.get? key = some v) :
    j.isObject = true := by
  cases j with
  | obj fields => rfl
  | _ => cases h

/-- Only the fields under `keys` may differ. -/
structure ChangesOnly (keys : List String) (a b : Json) : Prop where
  isObject : b.isObject = a.isObject
  get? : ∀ key ∉ keys, b.get? key = a.get? key

namespace ChangesOnly

variable {keys : List String} {a b c : Json}

theorem refl (keys : List String) (a : Json) : ChangesOnly keys a a := ⟨rfl, fun _ _ => rfl⟩

theorem trans (h₁ : ChangesOnly keys a b) (h₂ : ChangesOnly keys b c) : ChangesOnly keys a c :=
  ⟨h₂.isObject.trans h₁.isObject, fun key hkey => (h₂.get? key hkey).trans (h₁.get? key hkey)⟩

theorem mono {more : List String} (h : ChangesOnly keys a b) (hsub : keys ⊆ more) :
    ChangesOnly more a b :=
  ⟨h.isObject, fun key hkey => h.get? key fun hmem => hkey (hsub hmem)⟩

theorem insert (h : ChangesOnly keys a b) {key : String} (hkey : key ∈ keys) (value : Json) :
    ChangesOnly keys a (b.insert key value) :=
  h.trans ⟨isObject_insert _ _ _, fun k hk =>
    get?_insert_ne (fun heq : k = key => hk (heq ▸ hkey)) value b⟩

theorem remove (h : ChangesOnly keys a b) {key : String} (hkey : key ∈ keys) :
    ChangesOnly keys a (b.remove key) :=
  h.trans ⟨isObject_remove _ _, fun k hk =>
    get?_remove_ne (fun heq : k = key => hk (heq ▸ hkey)) b⟩

theorem getStr (h : ChangesOnly keys a b) {key : String} (hkey : key ∉ keys) :
    b.getStr key = a.getStr key := by
  rw [Json.getStr, Json.getStr, h.get? key hkey]

theorem getArray (h : ChangesOnly keys a b) {key : String} (hkey : key ∉ keys) :
    b.getArray key = a.getArray key := by
  rw [Json.getArray, Json.getArray, h.get? key hkey]

end ChangesOnly

end Json

end Sashiko
