import Multicycle.Json.Deserializer
import Multicycle.Json.Token
import Multicycle.Proofs.Decimal

/-! The grammar of JSON texts: numbers, strings and the texts that they mean, and values of any
depth, with white space wherever it may stand. What a library documents of the texts it reads. -/
namespace Multicycle.Json

def Blanks (s : List Char) : Prop := ∀ c ∈ s, isBlank c

instance (s : List Char) : Decidable (Blanks s) := List.decidableBAll (isBlank ·) s

/-- A text of the kind `P` between blanks. -/
def Padded (P : List Char → Prop) (s : List Char) : Prop :=
  ∃ before inner behind, s = before ++ (inner ++ behind) ∧ Blanks before ∧ P inner ∧ Blanks behind

/-- A whole number. Only zero itself begins with a zero. -/
structure Whole (s : List Char) (n : Nat) : Prop where
  decimal : Text.Decimal s n
  zero : s.head? = some '0' → s = ['0']

def Fraction (s : List Char) : Prop :=
  s = [] ∨ ∃ digits n, s = '.' :: digits ∧ Text.Decimal digits n

def Exponent (s : List Char) : Prop :=
  s = [] ∨ ∃ mark sign digits n, s = mark :: (sign ++ digits) ∧ (mark = 'e' ∨ mark = 'E') ∧
    (sign = [] ∨ sign = ['+'] ∨ sign = ['-']) ∧ Text.Decimal digits n

inductive IsNumber : List Char → Prop
  | mk {sign whole fraction exponent : List Char} {n : Nat} (hsign : sign = [] ∨ sign = ['-'])
      (hwhole : Whole whole n) (hfraction : Fraction fraction) (hexponent : Exponent exponent) :
      IsNumber (sign ++ (whole ++ (fraction ++ exponent)))

/-- What may follow a backslash alone, and the character that it stands for. -/
def escapes : List (Char × Char) :=
  [('"', '"'), ('\\', '\\'), ('/', '/'), ('b', '\x08'), ('f', '\x0c'), ('n', '\n'), ('r', '\r'),
    ('t', '\t')]

/-- A character that stands for itself between quotes. -/
def IsPlain (c : Char) : Prop := c ≠ '"' ∧ c ≠ '\\' ∧ 0x20 ≤ c.toNat

instance : DecidablePred IsPlain := fun c =>
  inferInstanceAs (Decidable (c ≠ '"' ∧ c ≠ '\\' ∧ 0x20 ≤ c.toNat))

/-- What stands between quotes: characters, escapes, and units of UTF-16 in four digits. -/
inductive Content : List Char → List Piece → Prop
  | nil : Content [] []
  | plain {c : Char} {s : List Char} {ps : List Piece} (hc : IsPlain c) (h : Content s ps) :
      Content (c :: s) (.plain c :: ps)
  | escape {letter c : Char} {s : List Char} {ps : List Piece} (hletter : (letter, c) ∈ escapes)
      (h : Content s ps) : Content ('\\' :: letter :: s) (.plain c :: ps)
  | unit {digits s : List Char} {values : List Nat} {ps : List Piece} (hlength : digits.length = 4)
      (hdigits : List.Forall₂ Text.HexDigit digits values) (h : Content s ps) :
      Content ('\\' :: 'u' :: (digits ++ s)) (.unit (Nat.ofDigits 16 values.reverse) :: ps)

/-- The characters that pieces stand for. One beyond the units takes a pair of surrogates. -/
inductive Means : List Piece → List Char → Prop
  | nil : Means [] []
  | plain {c : Char} {ps : List Piece} {cs : List Char} (h : Means ps cs) :
      Means (.plain c :: ps) (c :: cs)
  | unit {c : Char} {ps : List Piece} {cs : List Char} (h : Means ps cs) :
      Means (.unit c.toNat :: ps) (c :: cs)
  | pair {c : Char} {u v : Nat} {ps : List Piece} {cs : List Char} (hu : 0xD800 ≤ u ∧ u ≤ 0xDBFF)
      (hv : 0xDC00 ≤ v ∧ v ≤ 0xDFFF) (hc : c.toNat = 0x10000 + (u - 0xD800) * 0x400 + (v - 0xDC00))
      (h : Means ps cs) : Means (.unit u :: .unit v :: ps) (c :: cs)

def quoted (content : List Char) : List Char := '"' :: (content ++ ['"'])

def IsString (s : List Char) : Prop := ∃ content ps, s = quoted content ∧ Content content ps

/-- A string that means a text; one with a surrogate that stands alone means none. -/
def Quotes (text : List Char) (s : List Char) : Prop :=
  ∃ content ps, s = quoted content ∧ Content content ps ∧ Means ps text

/-- A value without values in it. -/
inductive IsScalar : List Char → Prop
  | null : IsScalar "null".toList
  | bool (b : Bool) : IsScalar (toString b).toList
  | number {s : List Char} (h : IsNumber s) : IsScalar s
  | string {s : List Char} (h : IsString s) : IsScalar s

/-- `items` with commas between them, enclosed by `first` and `last`. -/
def Enclosed (first last : Char) (items : List (List Char)) : List Char → Prop :=
  Padded fun s => ∃ blanks, Blanks blanks ∧
    s = first :: (blanks ++ (List.intercalate [','] items ++ [last]))

def member (key value : List Char) : List Char := key ++ ':' :: value

/-- A value between blanks. Nothing is asked of the keys of an object but that they are strings. -/
inductive Element : List Char → Prop
  | scalar {s : List Char} (h : Padded IsScalar s) : Element s
  | array {items : List (List Char)} {s : List Char} (hitems : ∀ i ∈ items, Element i)
      (h : Enclosed '[' ']' items s) : Element s
  | object {members : List (List Char × List Char)} {s : List Char}
      (hkeys : ∀ m ∈ members, Padded IsString m.1) (hvalues : ∀ m ∈ members, Element m.2)
      (h : Enclosed '\x7b' '\x7d' (members.map fun m => member m.1 m.2) s) : Element s

/-- A member as it is written, and the name that its key means. -/
structure Member where
  key : List Char
  value : List Char
  name : List Char

/-- Each named field comes once, with a text of its own for a value, in any order and among other
members. -/
structure Members {F : Type} (key : F → String) (named : F → Prop) (text : F → List Char → Prop)
    (members : List Member) : Prop where
  keys : ∀ m ∈ members, Padded (Quotes m.name) m.key
  values : ∀ m ∈ members, Element m.value
  fields : ∀ m ∈ members, ∀ f, m.name = (key f).toList → named f ∧ text f m.value
  complete : ∀ f, named f → ∃ m ∈ members, m.name = (key f).toList
  once : members.Pairwise fun m m' => ∀ f, m.name = (key f).toList → m'.name ≠ (key f).toList

def Object {F : Type} (key : F → String) (named : F → Prop) (text : F → List Char → Prop)
    (s : List Char) : Prop :=
  ∃ members, Members key named text members ∧
    Enclosed '\x7b' '\x7d' (members.map fun m => member m.key m.value) s

variable {F : Type} {key : F → String} {named : F → Prop} {text text' : F → List Char → Prop}
  {s : List Char} {m : Member} {members : List Member}

theorem Members.congr {named' : F → Prop} (h : Members key named text members)
    (hiff : ∀ f, named f ↔ named' f) : Members key named' text members := by
  rwa [funext fun f => propext (hiff f)] at h

theorem Object.imp (h : Object key named text s) (himp : ∀ f s, named f → text f s → text' f s) :
    Object key named text' s := by
  obtain ⟨members, hmembers, hs⟩ := h
  refine ⟨members, { hmembers with fields := fun m hm f hname => ?_ }, hs⟩
  obtain ⟨hnamed, htext⟩ := hmembers.fields m hm f hname
  exact ⟨hnamed, himp f _ hnamed htext⟩

theorem Object.element (h : Object key named text s) : Element s := by
  obtain ⟨members, hmembers, hs⟩ := h
  let texts := members.map fun m => (m.key, m.value)
  have hkeys : ∀ x ∈ texts, Padded IsString x.1 := by
    refine List.forall_mem_map.mpr fun m hm => ?_
    obtain ⟨before, inner, behind, hkey, hbefore, ⟨content, ps, hinner, hcontent, -⟩, hbehind⟩ :=
      hmembers.keys m hm
    exact ⟨before, inner, behind, hkey, hbefore, ⟨content, ps, hinner, hcontent⟩, hbehind⟩
  refine .object hkeys (List.forall_mem_map.mpr hmembers.values) ?_
  rwa [List.map_map]

def NullText : List Char → Prop := Padded (· = "null".toList)

def BoolText (b : Bool) : List Char → Prop := Padded (· = (toString b).toList)

def NaturalText (n : Nat) : List Char → Prop := Padded (Whole · n)

theorem Padded.element {P : List Char → Prop} (h : Padded P s)
    (hP : ∀ inner, P inner → IsScalar inner) : Element s := by
  obtain ⟨before, inner, behind, hs, hbefore, hinner, hbehind⟩ := h
  exact .scalar ⟨before, inner, behind, hs, hbefore, hP inner hinner, hbehind⟩

theorem NullText.element (h : NullText s) : Element s :=
  Padded.element h fun _ hinner => hinner ▸ .null

theorem BoolText.element {b : Bool} (h : BoolText b s) : Element s :=
  Padded.element h fun _ hinner => hinner ▸ .bool b

theorem Whole.isNumber {n : Nat} (h : Whole s n) : IsNumber s := by
  have hnumber := IsNumber.mk (.inl rfl) h (.inl rfl) (.inl rfl)
  rwa [List.nil_append, List.append_nil, List.append_nil] at hnumber

theorem NaturalText.element {n : Nat} (h : NaturalText n s) : Element s :=
  Padded.element h fun _ hinner => .number hinner.isNumber

end Multicycle.Json
