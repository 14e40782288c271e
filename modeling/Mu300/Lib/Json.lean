import Mu300.Lib.Longest
import Mu300.Lib.Unicode

/-!
# JSON texts

The grammar of JSON as a type of trees with everything that is written: the blanks, the way each
character of a string is written, the digits of a number. `Document.text` is the text of a tree, so
a text is a JSON object exactly when it is the text of a document. Texts are bytes, one `Char` each.

A string may have any byte as itself except the quote and the backslash. That is more than JSON
allows, which wants control characters escaped: readers differ in this, and one that refuses them
has to be given them.

* `strings` — all strings of a value at any depth, with the place where each stands.
-/

namespace Json

open Shell RegularExpression List Option Unicode

/-! ## Blanks, numbers and words -/

/-- The characters between tokens. -/
def isBlank (c : Char) : Bool := c = ' ' || c = '\n' || c = '\t' || c = '\r'

abbrev Blank := {t : Text // ∀ c ∈ t, isBlank c}

def digits : List Char := ['0', '1', '2', '3', '4', '5', '6', '7', '8', '9']

/-- `-?(0|[1-9][0-9]*)(\.[0-9]+)?([eE][-+]?[0-9]+)?` -/
def number : RegularExpression Char :=
  opt (char '-') * (char '0' + oneOf digits.tail * star (oneOf digits)) *
    opt (char '.' * many (oneOf digits)) *
      opt (oneOf ['e', 'E'] * opt (oneOf ['-', '+']) * many (oneOf digits))

abbrev Number := {t : Text // number.rmatch t}

theorem Number.exists_head (n : Number) : ∃ c t, n.1 = c :: t ∧ (c = '-' ∨ c ∈ digits) := by
  obtain ⟨text, hn⟩ := n
  obtain ⟨u, hu, exp, -, rfl⟩ := Language.mem_mul.1 ((rmatch_iff_matches' _ _).1 hn)
  obtain ⟨w, hw, frac, -, rfl⟩ := Language.mem_mul.1 hu
  obtain ⟨sign, hsign, int, hint, rfl⟩ := Language.mem_mul.1 hw
  have hdigit : ∃ c t, int = c :: t ∧ c ∈ digits := by
    rcases hint with hint | hint
    · obtain rfl : int = ['0'] := hint
      exact ⟨'0', [], rfl, mem_cons_self⟩
    · obtain ⟨d, hd, ds, -, rfl⟩ := Language.mem_mul.1 hint
      obtain ⟨c, hc, rfl⟩ := mem_oneOf hd
      exact ⟨c, ds, rfl, mem_of_mem_tail hc⟩
  obtain ⟨c, t, rfl, hc⟩ := hdigit
  rcases hsign with hsign | hsign
  · obtain rfl : sign = ['-'] := hsign
    exact ⟨'-', _, rfl, .inl rfl⟩
  · obtain rfl : sign = [] := hsign
    exact ⟨c, _, rfl, .inr hc⟩

inductive Word : Type where
  | true
  | false
  | null
  deriving DecidableEq

def Word.text : Word → Text
  | .true => ['t', 'r', 'u', 'e']
  | .false => ['f', 'a', 'l', 's', 'e']
  | .null => ['n', 'u', 'l', 'l']

/-! ## Strings -/

def hexDigit (c : Char) : Option ℕ :=
  if '0' ≤ c ∧ c ≤ '9' then some (c.toNat - '0'.toNat)
  else if 'a' ≤ c ∧ c ≤ 'f' then some (c.toNat - 'a'.toNat + 10)
  else if 'A' ≤ c ∧ c ≤ 'F' then some (c.toNat - 'A'.toNat + 10)
  else none

abbrev HexDigit := {c : Char // (hexDigit c).isSome}

def HexDigit.toNat (d : HexDigit) : ℕ := (hexDigit d.1).get d.2

theorem lt_of_hexDigit {c : Char} {n : ℕ} (h : hexDigit c = some n) : n < 16 := by
  have hle : ∀ {a b : Char}, a ≤ b → a.toNat ≤ b.toNat := fun h => h
  rw [hexDigit] at h
  split_ifs at h with h₁ h₂ h₃
  · have hnine : '9'.toNat = 57 := rfl
    have hzero : '0'.toNat = 48 := rfl
    have := hle h₁.2
    cases h
    omega
  · have hf : 'f'.toNat = 102 := rfl
    have ha : 'a'.toNat = 97 := rfl
    have := hle h₂.2
    cases h
    omega
  · have hf : 'F'.toNat = 70 := rfl
    have ha : 'A'.toNat = 65 := rfl
    have := hle h₃.2
    cases h
    omega

theorem HexDigit.toNat_lt (d : HexDigit) : d.toNat < 16 := lt_of_hexDigit (some_get d.2).symm

inductive Short : Type where
  | quote
  | backslash
  | slash
  | b
  | f
  | n
  | r
  | t
  deriving DecidableEq

/-- The letter behind the backslash. -/
def Short.letter : Short → Char
  | quote => '"'
  | backslash => '\\'
  | slash => '/'
  | b => 'b'
  | f => 'f'
  | n => 'n'
  | r => 'r'
  | t => 't'

def Short.char : Short → Char
  | quote => '"'
  | backslash => '\\'
  | slash => '/'
  | b => Char.ofNat 8
  | f => Char.ofNat 12
  | n => '\n'
  | r => '\r'
  | t => '\t'

structure Hex4 : Type where
  a : HexDigit
  b : HexDigit
  c : HexDigit
  d : HexDigit
  deriving DecidableEq

def Hex4.text (x : Hex4) : Text := [x.a.1, x.b.1, x.c.1, x.d.1]

def Hex4.toNat (x : Hex4) : ℕ := ((x.a.toNat * 16 + x.b.toNat) * 16 + x.c.toNat) * 16 + x.d.toNat

theorem Hex4.toNat_lt (x : Hex4) : x.toNat < 0x10000 := by
  have := x.a.toNat_lt
  have := x.b.toNat_lt
  have := x.c.toNat_lt
  have := x.d.toNat_lt
  rw [toNat]
  omega

/-- A character of a string as it is written: as itself, with an escape of one letter, or with four
hexadecimal digits. -/
inductive Item : Type where
  | raw (c : Char) (h : c ≠ '"' ∧ c ≠ '\\')
  | short (e : Short)
  | unicode (d : Hex4)
  deriving DecidableEq

def Item.text : Item → Text
  | raw c _ => [c]
  | short e => ['\\', e.letter]
  | unicode d => '\\' :: 'u' :: d.text

/-- The byte or the unit of UTF-16 that an item stands for. -/
def Item.unit : Item → ℕ
  | raw c _ => c.toNat
  | short e => e.char.toNat
  | unicode d => d.toNat

abbrev Str := List Item

/-- The text of a string, with the quote at its end. -/
def Str.text (s : Str) : Text := s.flatMap Item.text ++ ['"']

def isHigh (u : ℕ) : Bool := 0xD800 ≤ u && u < 0xDC00

def isLow (u : ℕ) : Bool := 0xDC00 ≤ u && u < 0xE000

/-- The character of a surrogate pair. -/
def ofPair (hi lo : ℕ) : ℕ := 0x10000 + (hi - 0xD800) * 0x400 + (lo - 0xDC00)

theorem isHigh_iff {u : ℕ} : isHigh u ↔ 0xD800 ≤ u ∧ u < 0xDC00 := by
  rw [isHigh, Bool.and_eq_true, decide_eq_true_eq, decide_eq_true_eq]

theorem isLow_iff {u : ℕ} : isLow u ↔ 0xDC00 ≤ u ∧ u < 0xE000 := by
  rw [isLow, Bool.and_eq_true, decide_eq_true_eq, decide_eq_true_eq]

section Numbers

variable {n u l : ℕ}

theorem isValidChar_of_unit (h : u < 0x10000) (hhigh : ¬ isHigh u) (hlow : ¬ isLow u) :
    u.isValidChar := by
  rw [isHigh_iff] at hhigh
  rw [isLow_iff] at hlow
  rw [Nat.isValidChar]
  omega

theorem le_ofPair (u l : ℕ) : 128 ≤ ofPair u l := by
  unfold ofPair
  omega

theorem isValidChar_ofPair (hhigh : isHigh u) (hlow : isLow l) : (ofPair u l).isValidChar := by
  rw [isHigh_iff] at hhigh
  rw [isLow_iff] at hlow
  unfold Nat.isValidChar ofPair
  omega

theorem toNat_ofNat (h : n.isValidChar) : (Char.ofNat n).toNat = n := by
  rw [Char.ofNat, dif_pos h]
  rfl

theorem mem_utf8_iff (h : n.isValidChar) {c : Char} (hc : c.toNat < 128) :
    c ∈ utf8 (Char.ofNat n) ↔ n = c.toNat := by
  constructor
  · intro hmem
    rw [eq_of_mem_utf8 hc hmem, toNat_ofNat h]
  · rintro rfl
    rw [Char.ofNat_toNat, utf8_of_lt_128 hc]
    exact mem_singleton_self c

end Numbers

/-- The bytes a string stands for, none when half of a surrogate pair is alone. -/
def decode : Str → Option Text
  | [] => some []
  | .raw c _ :: s => (decode s).map (c :: ·)
  | .short e :: s => (decode s).map (e.char :: ·)
  | .unicode d :: s =>
    let u := d.toNat
    if isHigh u then
      match s with
      | .unicode e :: s' =>
        let l := e.toNat
        if isLow l then (decode s').map (utf8 (Char.ofNat (ofPair u l)) ++ ·) else none
      | _ => none
    else if isLow u then none
    else (decode s).map (utf8 (Char.ofNat u) ++ ·)

section Decode

variable {d e : Hex4} {s : Str}

theorem decode_unit (hhigh : ¬ isHigh d.toNat) (hlow : ¬ isLow d.toNat) :
    decode (.unicode d :: s) = (decode s).map (utf8 (Char.ofNat d.toNat) ++ ·) := by
  rw [decode.eq_def]
  dsimp only
  rw [if_neg hhigh, if_neg hlow]

/-- **A byte below 128 is in the text of a string** exactly when an item stands for it, in whatever
way it is written. -/
theorem mem_decode_iff (s : Str) (t : Text) (h : decode s = some t) {c : Char}
    (hc : c.toNat < 128) : c ∈ t ↔ ∃ i ∈ s, i.unit = c.toNat := by
  fun_induction decode s generalizing t with
  | case1 =>
    cases h
    simp
  | case2 b hb s ih =>
    obtain ⟨u, hu, rfl⟩ := map_eq_some_iff.1 h
    have hself : c = b ↔ b.toNat = c.toNat := by rw [Char.toNat_inj, eq_comm]
    rw [mem_cons, ih u hu, hself]
    simp [Item.unit]
  | case3 e s ih =>
    obtain ⟨u, hu, rfl⟩ := map_eq_some_iff.1 h
    have hself : c = e.char ↔ e.char.toNat = c.toNat := by rw [Char.toNat_inj, eq_comm]
    rw [mem_cons, ih u hu, hself]
    simp [Item.unit]
  | case4 d u hhigh e s l hlow ih =>
    obtain ⟨w, hw, rfl⟩ := map_eq_some_iff.1 h
    rw [mem_append, ih w hw, mem_utf8_iff (isValidChar_ofPair hhigh hlow) hc]
    have hpair := le_ofPair u l
    rw [isHigh_iff] at hhigh
    rw [isLow_iff] at hlow
    have h₀ : ofPair u l ≠ c.toNat := by omega
    have h₁ : d.toNat ≠ c.toNat := by omega
    have h₂ : e.toNat ≠ c.toNat := by omega
    simp [Item.unit, h₀, h₁, h₂]
  | case8 d s u hhigh hlow ih =>
    obtain ⟨w, hw, rfl⟩ := map_eq_some_iff.1 h
    have hvalid := isValidChar_of_unit d.toNat_lt hhigh hlow
    rw [mem_append, ih w hw, mem_utf8_iff hvalid hc]
    simp [Item.unit]
  | case5 | case6 | case7 => cases h

end Decode

/-! ## Values -/

structure Member (V : Type) where
  before : Blank
  key : Str
  beforeColon : Blank
  afterColon : Blank
  value : V
  after : Blank

structure Element (V : Type) where
  before : Blank
  value : V
  after : Blank

/-- A value as it is written; the blank of an array or an object is the one before the first
element, or the only one. -/
inductive Value : Type where
  | str (s : Str)
  | num (n : Number)
  | word (w : Word)
  | arr (w : Blank) (es : List (Element Value))
  | obj (w : Blank) (ms : List (Member Value))

mutual

def Value.text : Value → Text
  | .str s => '"' :: s.text
  | .num n => n.1
  | .word w => w.text
  | .arr w es => '[' :: w.1 ++ elementsText es ++ [']']
  | .obj w ms => '{' :: w.1 ++ membersText ms ++ ['}']

def elementsText : List (Element Value) → Text
  | [] => []
  | [e] => Element.text e
  | e :: es => Element.text e ++ ',' :: elementsText es

def Element.text : Element Value → Text
  | ⟨before, value, after⟩ => before.1 ++ value.text ++ after.1

def membersText : List (Member Value) → Text
  | [] => []
  | [m] => Member.text m
  | m :: ms => Member.text m ++ ',' :: membersText ms

def Member.text : Member Value → Text
  | ⟨before, key, beforeColon, afterColon, value, after⟩ =>
    before.1 ++ '"' :: key.text ++ beforeColon.1 ++ ':' :: afterColon.1 ++ value.text ++ after.1

end

theorem Value.isBlank_head (v : Value) (t : Text) :
    ∀ c ∈ (v.text ++ t).head?, isBlank c = false := by
  cases v with
  | num n =>
    obtain ⟨c, u, hn, hc⟩ := n.exists_head
    rw [Value.text, hn]
    rintro d ⟨⟩
    rcases hc with rfl | hc
    · rfl
    · have hdigits : digits.all (fun c => !isBlank c) := by decide
      have hnot := all_eq_true.1 hdigits c hc
      rwa [Bool.not_eq_true'] at hnot
  | word w =>
    rw [Value.text]
    cases w <;> rintro d ⟨⟩ <;> rfl
  | str s | arr w es | obj w ms =>
    rw [Value.text]
    rintro d ⟨⟩
    rfl

inductive Place : Type where
  | key
  | value
  deriving DecidableEq

mutual

/-- The strings of a value, at any depth. -/
def Value.strings : Value → List (Place × Str)
  | .str s => [(.value, s)]
  | .num _ | .word _ => []
  | .arr _ es => elementsStrings es
  | .obj _ ms => membersStrings ms

def elementsStrings : List (Element Value) → List (Place × Str)
  | [] => []
  | ⟨_, value, _⟩ :: es => value.strings ++ elementsStrings es

def membersStrings : List (Member Value) → List (Place × Str)
  | [] => []
  | ⟨_, key, _, _, value, _⟩ :: ms => (.key, key) :: value.strings ++ membersStrings ms

end

structure Document where
  before : Blank
  inside : Blank
  members : List (Member Value)
  after : Blank

namespace Document

def text (d : Document) : Text := d.before.1 ++ (Value.obj d.inside d.members).text ++ d.after.1

def strings (d : Document) : List (Place × Str) := membersStrings d.members

end Document

end Json
