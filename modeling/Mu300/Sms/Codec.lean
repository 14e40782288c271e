import Mu300.Lib.Hex

/-!
# The SMS codec

`sms-pdu.awk`: the modes `decode` and `encode`.

The bit operations `b_and`, `b_or`, `b_lshift` and `b_rshift` are those of the natural numbers.
-/

namespace Mu300.Sms

open Shell Hex Char

/-! ## Octets and characters -/

/-- `hexval(substr(h, i + 1, 1))`: behind the end there is no digit, and `index` finds the empty
text at 1. -/
def hexAt (h : Text) (i : ℕ) : ℕ := (h[i]?.map hexval).getD 10

/-- `byteat`: the octet `i`, from 0. -/
def byteat (h : Text) (i : ℕ) : ℕ := hexAt h (i * 2) * 16 + hexAt h (i * 2 + 1)

/-- `GSM`: the code points of the default alphabet. -/
def gsm : List ℕ :=
  [64, 163, 36, 165, 232, 233, 249, 236, 242, 199, 10, 216, 248, 13, 197, 229,
   916, 95, 934, 915, 923, 937, 928, 936, 931, 920, 926, 27, 198, 230, 223, 201,
   32, 33, 34, 35, 164, 37, 38, 39, 40, 41, 42, 43, 44, 45, 46, 47,
   48, 49, 50, 51, 52, 53, 54, 55, 56, 57, 58, 59, 60, 61, 62, 63,
   161, 65, 66, 67, 68, 69, 70, 71, 72, 73, 74, 75, 76, 77, 78, 79,
   80, 81, 82, 83, 84, 85, 86, 87, 88, 89, 90, 196, 214, 209, 220, 167,
   191, 97, 98, 99, 100, 101, 102, 103, 104, 105, 106, 107, 108, 109, 110, 111,
   112, 113, 114, 115, 116, 117, 118, 119, 120, 121, 122, 228, 246, 241, 252, 224]

/-- `EXT`: what the escape makes of a septet. -/
def ext : List (ℕ × ℕ) :=
  [(10, 12), (20, 94), (40, 123), (41, 125), (47, 92), (60, 91), (61, 126), (62, 93), (64, 124),
   (101, 8364)]

/-- `TR`: the Turkish table, where it differs. -/
def tr : List (ℕ × ℕ) :=
  [(4, 8364), (7, 305), (11, 286), (12, 287), (28, 350), (29, 351), (64, 304), (96, 231)]

/-- `TRX`: the Turkish table behind the escape. -/
def trx : List (ℕ × ℕ) :=
  [(20, 94), (40, 123), (41, 125), (47, 92), (60, 91), (61, 126), (62, 93), (64, 124), (101, 8364),
   (71, 286), (73, 304), (83, 350), (99, 231), (103, 287), (105, 305), (115, 351)]

def septetChar (sept lang : ℕ) : ℕ :=
  if lang = 1 then (tr.lookup sept).getD (gsm.getD sept 0) else gsm.getD sept 0

def septetEsc (sept langx : ℕ) : ℕ :=
  let plain := (ext.lookup sept).getD (gsm.getD sept 0)
  if langx = 1 then (trx.lookup sept).getD plain else plain

/-- `utf8`: a code point in at most three bytes. -/
def utf8 (c : ℕ) : Text :=
  if c < 128 then [ofNat c]
  else if c < 2048 then [ofNat (192 + c / 64), ofNat (128 + c % 64)]
  else [ofNat (224 + c / 4096), ofNat (128 + c / 64 % 64), ofNat (128 + c % 64)]

/-! ## Decoding -/

/-- The septet `i` of those packed from the octet `off` on. -/
def septetAt (h : Text) (off i : ℕ) : ℕ :=
  let bit := i * 7
  let low := byteat h (off + bit / 8) >>> (bit % 8)
  let both := if 1 < bit % 8 then low ||| (byteat h (off + bit / 8 + 1) <<< (8 - bit % 8)) else low
  both &&& 127

/-- One septet of `gsm7_decode`: the text so far, and whether an escape came before. -/
def gsm7Step (lang langx : ℕ) (st : Text × Bool) (sept : ℕ) : Text × Bool :=
  if sept = 27 then (st.1, true)
  else if st.2 then (st.1 ++ utf8 (septetEsc sept langx), false)
  else (st.1 ++ utf8 (septetChar sept lang), false)

/-- `gsm7_decode`: `n` septets, the first `skip` of them left out. -/
def gsm7Decode (h : Text) (off n skip lang langx : ℕ) : Text :=
  ((((List.range n).drop skip).map (septetAt h off)).foldl (gsm7Step lang langx) ([], false)).1

/-- `ucs2_decode`: a unit every two octets. -/
def ucs2Decode (h : Text) (off n : ℕ) : Text :=
  (List.range ((n + 1) / 2)).flatMap fun k =>
    utf8 (byteat h (off + 2 * k) * 256 + byteat h (off + 2 * k + 1))

/-- `substr(digits, d + 1, 1)`. -/
def pick (digits : String) (d : ℕ) : Text := digits.toList[d]?.toList

/-- `bcd_decode`: a number in semi-octets. -/
def bcdDecode (h : Text) (off digits : ℕ) : Text :=
  (List.range ((digits + 1) / 2)).flatMap fun i =>
    let b := byteat h (off + i)
    pick "0123456789*#abc" (b &&& 15) ++
      if i * 2 + 1 < digits then pick "0123456789*#abc" (b >>> 4) else []

/-- What comes behind the pairs of digits of a timestamp. -/
def tsSeparator (i : ℕ) : Text :=
  if i = 2 then [' '] else if i < 2 then ['-'] else if i < 5 then [':'] else []

def tsDecode (h : Text) (off : ℕ) : Text :=
  ['2', '0'] ++ (List.range 6).flatMap fun i =>
    let b := byteat h (off + i)
    pick "0123456789" (b &&& 15) ++ pick "0123456789" (b >>> 4) ++ tsSeparator i

/-- `esc_field`: tabs and line feeds are blanks, carriage returns go. -/
def escField (s : Text) : Text :=
  (s.map fun ch => if ch = '\t' ∨ ch = '\n' then ' ' else ch).filter (· ≠ '\r')

/-- What the header in front of a text says. -/
structure Header where
  ref : Option ℕ
  total : ℕ
  part : ℕ
  lang : ℕ
  langx : ℕ

def Header.single : Header := ⟨none, 1, 1, 0, 0⟩

/-- One element of the header, at the octet `j`. -/
def Header.element (h : Text) (hend j : ℕ) (hd : Header) : Header :=
  let ielen := byteat h (j + 1)
  match byteat h j with
  | 0 =>
    if ielen = 3 ∧ j + 5 ≤ hend then
      { hd with
        ref := some (byteat h (j + 2)), total := byteat h (j + 3), part := byteat h (j + 4) }
    else hd
  | 8 =>
    if ielen = 4 ∧ j + 6 ≤ hend then
      { hd with
        ref := some (byteat h (j + 2) * 256 + byteat h (j + 3))
        total := byteat h (j + 4)
        part := byteat h (j + 5) }
    else hd
  | 36 => { hd with langx := byteat h (j + 2) }
  | 37 => { hd with lang := byteat h (j + 2) }
  | _ => hd

/-- The walk over the elements; each of them is two octets long at least. -/
def Header.walk (h : Text) (hend : ℕ) : ℕ → ℕ → Header → Header
  | 0, _, hd => hd
  | n + 1, j, hd =>
    if j + 1 < hend then Header.walk h hend n (j + 2 + byteat h (j + 1)) (hd.element h hend j)
    else hd

/-- A part that no message could be made whole of is a message of its own. -/
def Header.usable (hd : Header) : Header :=
  if hd.ref.isSome ∧ (hd.total < 1 ∨ hd.part < 1 ∨ hd.total < hd.part) then
    { hd with ref := none, total := 1, part := 1 }
  else hd

structure Record where
  idx : Text
  sender : Text
  ts : Text
  ref : Option ℕ
  total : ℕ
  part : ℕ
  text : Text

def decimal (n : ℕ) : Text := Nat.toDigits 10 n

/-- The fields of the printed line. -/
def Record.fields (r : Record) : List Text :=
  [r.idx, r.sender, r.ts, (r.ref.map decimal).getD [], decimal r.total, decimal r.part, r.text]

def Record.line (r : Record) : Text := ['\t'].intercalate r.fields

/-- `decode_pdu`; nothing for a PDU that is no SMS-DELIVER. -/
def decodePdu (idx h : Text) : Option Record :=
  let i := 1 + byteat h 0
  let first := byteat h i
  if first &&& 3 ≠ 0 then none
  else
    let oal := byteat h (i + 1)
    let toa := byteat h (i + 2)
    let sender := if toa &&& 112 = 80 then gsm7Decode h (i + 3) (oal * 4 / 7) 0 0 0
      else (if toa &&& 112 = 16 then ['+'] else []) ++ bcdDecode h (i + 3) oal
    let i := i + 3 + (oal + 1) / 2
    let dcs := byteat h (i + 1)
    let udl := byteat h (i + 9)
    -- the user data
    let ud := i + 10
    let udhl := if first &&& 64 ≠ 0 then byteat h ud else 0
    let hd := if first &&& 64 ≠ 0 then
        (Header.single.walk h (ud + 1 + udhl) udhl (ud + 1)).usable
      else Header.single
    let front := if udhl ≠ 0 then udhl + 1 else 0
    let text := if dcs &&& 12 = 8 then ucs2Decode h (ud + front) (udl - front)
      else if dcs &&& 12 = 4 then
        (List.range (udl - front)).flatMap fun k => utf8 (byteat h (ud + front + k))
      else gsm7Decode h ud udl (if udhl ≠ 0 then ((udhl + 1) * 8 + 6) / 7 else 0) hd.lang hd.langx
    some ⟨escField idx, escField sender, tsDecode h (i + 2), hd.ref, hd.total, hd.part,
      escField text⟩

/-- A line of the mode `decode`. -/
def decode (idx h : Text) : Option Text := (decodePdu idx h).map Record.line

/-! ## Encoding -/

/-- `bcd_encode` of digits. -/
def bcdEncode : Text → Text
  | [] => []
  | [a] => ['F', a]
  | a :: b :: num => b :: a :: bcdEncode num

/-- `index_of_byte`: 0 behind the end. -/
def indexOfByte (s : Text) (i : ℕ) : ℕ := (s[i]?.map Char.toNat).getD 0

/-- `utf8_points`; a code point is one byte long at least. -/
def utf8PointsFrom : ℕ → Text → List ℕ
  | 0, _ => []
  | _ + 1, [] => []
  | n + 1, b :: s =>
    let b := b.toNat
    let low := fun i => indexOfByte s i &&& 63
    if b < 128 then b :: utf8PointsFrom n s
    else if b < 224 then ((b &&& 31) * 64 + low 0) :: utf8PointsFrom n (s.drop 1)
    else if b < 240 then (((b &&& 15) * 64 + low 0) * 64 + low 1) :: utf8PointsFrom n (s.drop 2)
    else ((((b &&& 7) * 64 + low 0) * 64 + low 1) * 64 + low 2) :: utf8PointsFrom n (s.drop 3)

def utf8Points (s : Text) : List ℕ := utf8PointsFrom s.length s

def rgsm (c : ℕ) : Option ℕ := gsm.idxOf? c

def resc (c : ℕ) : Option ℕ := (ext.find? fun p => p.2 = c).map Prod.fst

def gsm7Encodable (cp : List ℕ) : Bool := cp.all fun c => (rgsm c).isSome || (resc c).isSome

def septetsOf (c : ℕ) : List ℕ :=
  match rgsm c with
  | some s => [s]
  | none => [27, (resc c).getD 0]

/-- Packed octets, and the bits that do not make one yet. -/
structure Packing where
  out : Text
  bits : ℕ
  val : ℕ

/-- One septet more; an octet is full at most once. -/
def Packing.add (p : Packing) (sept : ℕ) : Packing :=
  let val := p.val ||| (sept <<< p.bits)
  if 8 ≤ p.bits + 7 then ⟨p.out ++ pad2 (val &&& 255), p.bits + 7 - 8, val >>> 8⟩
  else ⟨p.out, p.bits + 7, val⟩

def Packing.close (p : Packing) : Text :=
  if 0 < p.bits then p.out ++ pad2 (p.val &&& 255) else p.out

def gsm7Pack (cp : List ℕ) : Text := ((cp.flatMap septetsOf).foldl Packing.add ⟨[], 0, 0⟩).close

def ucs2Pack (cp : List ℕ) : Text := cp.flatMap fun v => pad2 (v / 256) ++ pad2 (v % 256)

/-- The user data of a text: the coding, the length field and the data. -/
structure UserData where
  dcs : Text
  udl : ℕ
  ud : Text

/-- The default alphabet if it has every character. -/
def userData (text : Text) : UserData :=
  let cp := utf8Points text
  if gsm7Encodable cp then ⟨['0', '0'], (cp.flatMap septetsOf).length, gsm7Pack cp⟩
  else ⟨['0', '8'], cp.length * 2, ucs2Pack cp⟩

/-- The mode `encode`: the length of the TPDU and the PDU. -/
def encode (number text : Text) : ℕ × Text :=
  let data := userData text
  let num := number.filter isDigit
  let toa := if number.head? = some '+' then ['9', '1'] else ['8', '1']
  let tpdu := ['1', '1', '0', '0'] ++ pad2 num.length ++ toa ++ bcdEncode num ++ ['0', '0'] ++
    data.dcs ++ ['A', 'A'] ++ pad2 data.udl ++ data.ud
  (tpdu.length / 2, ['0', '0'] ++ tpdu)

end Mu300.Sms
