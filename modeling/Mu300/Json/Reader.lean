import Mu300.Lib.Json
import Mu300.Lib.Loop

/-!
# The reader of flat JSON

`rootfs/overlay/opt/mu300/lib/json.awk` with `mode=flat`: a request of the API, one object whose
values are strings, numbers and words, into one line for each member. It runs under `LC_ALL=C`, so a
text is bytes and any byte may stand in it.

The script keeps the whole input in `S` and a place `P` in it. Here a function is given what is left
from `P` on and returns what it leaves. `fail()` puts `P` behind the end and sets `BAD`, and every
caller then returns: that is `none`.

What `\u` and `\b`, `\f` bring into a string is put between two marks, the bytes 1 and 2, because
text that is written as itself may hold no control character. `cleanctl` looks at what is between
the marks of a value, `unmark` takes the marks away.
-/

namespace Mu300.FlatJson

open Shell Char

/-- `CTL`: the bytes 1 to 31, and 127. -/
def ctl (c : Char) : Bool := 1 ≤ c.toNat && c.toNat ≤ 31 || c.toNat = 127

/-- The mark before what an escape brings. -/
def soh : Char := ofNat 1

def stx : Char := ofNat 2

/-- The lines of the input put together again: all but a newline at its end. -/
def slurp (input : Text) : Text :=
  if input.getLast? = some '\n' then input.dropLast else input

def ws (r : Text) : Text := r.dropWhile fun c => c = ' ' || c = '\n' || c = '\t' || c = '\r'

/-! ## Strings -/

def utf8 (n : ℕ) : Text :=
  if n < 128 then [ofNat n]
  else if n < 2048 then [ofNat (192 + n / 64), ofNat (128 + n % 64)]
  else if n < 65536 then
    [ofNat (224 + n / 4096), ofNat (128 + n / 64 % 64), ofNat (128 + n % 64)]
  else
    [ofNat (240 + n / 262144), ofNat (128 + n / 4096 % 64), ofNat (128 + n / 64 % 64),
      ofNat (128 + n % 64)]

/-- `hex4()`: the number of four digits, and what is left behind them. -/
def hex4 : Text → Option (ℕ × Text)
  | a :: b :: c :: d :: r =>
    ([a, b, c, d].foldlM (fun n x => (Json.hexDigit x).map (n * 16 + ·)) 0).map (·, r)
  | _ => none

def mark (t : Text) : Text := soh :: t ++ [stx]

/-- Behind the first half of a surrogate pair: the other half has to follow. -/
def otherHalf (n : ℕ) : Text → Option (Text × Text)
  | '\\' :: 'u' :: r =>
    match hex4 r with
    | none => none
    | some (m, r) =>
      if m < 56320 ∨ 57344 ≤ m then none
      else some (mark (utf8 (65536 + (n - 55296) * 1024 + (m - 56320))), r)
  | _ => none

/-- Behind `\u`: the character of the four digits, or of two times four. -/
def unicode (r : Text) : Option (Text × Text) :=
  match hex4 r with
  | none => none
  | some (n, r) =>
    if n = 0 then none
    else if 55296 ≤ n ∧ n < 56320 then otherHalf n r
    else if 56320 ≤ n ∧ n < 57344 then none
    else some (mark (utf8 n), r)

/-- Behind a backslash: what comes into the string, and what is left. -/
def escape : Text → Option (Text × Text)
  | [] => none
  | c :: r =>
    if c = '"' ∨ c = '\\' ∨ c = '/' then some ([c], r)
    else if c = 'n' then some (['\n'], r)
    else if c = 't' then some (['\t'], r)
    else if c = 'r' then some (['\r'], r)
    else if c = 'b' then some (mark [ofNat 8], r)
    else if c = 'f' then some (mark [ofNat 12], r)
    else if c = 'u' then unicode r
    else none

/-- `index(t, c)`: counted from one, zero when it is not there. -/
def index (t : Text) (c : Char) : ℕ := if c ∈ t then t.idxOf c + 1 else 0

/-- One pass of the loop of `str()`, from what it has put together and what is left: a run without
quotes and backslashes, of at most 512 bytes, and the quote or the escape behind it. -/
def strPass (s : Text × Text) : (Text × Text) ⊕ Option (Text × Text) :=
  let o := s.1
  let r := s.2
  if r = [] then .inr none
  else
    let chunk := r.take 512
    let q := index chunk '"'
    let b := index chunk '\\'
    if q = 0 ∧ b = 0 then
      if chunk.any ctl then .inr none else .inl (o ++ chunk, r.drop chunk.length)
    else if b = 0 ∨ 0 < q ∧ q < b then
      let seg := chunk.take (q - 1)
      if seg.any ctl then .inr none else .inr (some (o ++ seg, r.drop q))
    else
      let seg := chunk.take (b - 1)
      if seg.any ctl then .inr none
      else
        match escape (r.drop b) with
        | none => .inr none
        | some (x, r) => .inl (o ++ seg ++ x, r)

/-- The loop of `str()`. -/
def scan (o r : Text) : Option (Text × Text) := Loop.run strPass none (fun s => s.2.length) (o, r)

/-- `str()`, behind the opening quote: the string with its marks, and what is left behind the
closing quote. -/
def str (r : Text) : Option (Text × Text) := scan [] r

def unmark (t : Text) : Text := t.filter fun c => c ≠ soh && c ≠ stx

/-- The first match of `MARKED`: what is between the marks, and what is behind them. -/
def marked (t : Text) : Option (Text × Text) :=
  match t.dropWhile (· ≠ soh) with
  | [] => none
  | _ :: t =>
    match t.dropWhile (· ≠ stx) with
    | [] => none
    | _ :: rest => some (t.takeWhile (· ≠ stx), rest)

/-- A control character other than tab, newline and CR. -/
def badctl (x : Text) : Bool := x.any ctl && x ≠ ['\t'] && x ≠ ['\r'] && x ≠ ['\n']

/-- One pass of the loop of `cleanctl`. -/
def cleanctlPass (t : Text) : Text ⊕ Bool :=
  match marked t with
  | none => .inr false
  | some (x, rest) => if badctl x then .inr true else .inl rest

def cleanctl (t : Text) : Bool := Loop.run cleanctlPass false List.length t

/-! ## Values -/

def num (r : Text) : Option (Text × Text) :=
  match Json.number.longest (r.take 64) with
  | none => none
  | some n => some ((r.take 64).take n, r.drop n)

def lit (r : Text) : Option (Text × Text) :=
  let m := r.take 5
  if m.take 4 = ['t', 'r', 'u', 'e'] then some (['t', 'r', 'u', 'e'], r.drop 4)
  else if m = ['f', 'a', 'l', 's', 'e'] then some (['f', 'a', 'l', 's', 'e'], r.drop 5)
  else if m.take 4 = ['n', 'u', 'l', 'l'] then some (['n', 'u', 'l', 'l'], r.drop 4)
  else none

/-- A value as it goes to the output, before `esc`. -/
structure Scalar where
  type : Char
  value : Text

/-- A string as a value, behind its opening quote. -/
def quoted (r : Text) : Option (Scalar × Text) :=
  match str r with
  | none => none
  | some (v, r) => if (marked v).isSome ∧ cleanctl v then none else some (⟨'s', unmark v⟩, r)

/-- A value of a member: a string, a number by its first character, or else a word. -/
def value (r : Text) : Option (Scalar × Text) :=
  match r with
  | '"' :: r => quoted r
  | r =>
    if r.head?.any fun c => c = '-' || '0' ≤ c && c ≤ '9' then
      (num r).map fun x => (⟨'n', x.1⟩, x.2)
    else (lit r).map fun x => (⟨if x.1 = ['n', 'u', 'l', 'l'] then 'z' else 'b', x.1⟩, x.2)

/-- `rep(t, from, to)`, where `from` is one byte. -/
def rep (t : Text) (c : Char) (new : Text) : Text := t.flatMap fun x => if x = c then new else [x]

def esc (t : Text) : Text :=
  rep (rep (rep (rep t '\\' ['\\', '\\']) '\n' ['\\', 'n']) '\t' ['\\', 't']) '\r' ['\\', 'r']

/-! ## Objects -/

/-- The characters a key may begin with: `[A-Za-z_]` with `anykey`, `[a-z]` without. -/
def keyHead (anykey : Bool) (c : Char) : Bool :=
  'a' ≤ c && c ≤ 'z' || anykey && ('A' ≤ c && c ≤ 'Z' || c = '_')

def keyTail (anykey : Bool) (c : Char) : Bool :=
  'a' ≤ c && c ≤ 'z' || '0' ≤ c && c ≤ '9' || c = '_' || anykey && 'A' ≤ c && c ≤ 'Z'

/-- A key matches the expression for it. -/
def isKey (anykey : Bool) : Text → Bool
  | [] => false
  | c :: k => keyHead anykey c && k.all (keyTail anykey)

def line (k : Text) (v : Scalar) : Text := k ++ '\t' :: v.type :: '\t' :: esc v.value ++ ['\n']

/-- Behind a key: a colon and the value. The key, its line and what is left. -/
def keyed (k r : Text) : Option (Text × Text × Text) :=
  match ws r with
  | ':' :: r => (value (ws r)).map fun x => (k, line k x.1, x.2)
  | _ => none

/-- A member up to the end of its value. -/
def member (anykey : Bool) (seen : List Text) (r : Text) : Option (Text × Text × Text) :=
  match ws r with
  | '"' :: r =>
    match str r with
    | none => none
    | some (v, r) =>
      let k := unmark v
      if 32 < k.length ∨ k ∈ seen then none
      else if ¬ isKey anykey k then none
      else keyed k r
  | _ => none

/-- What `flat()` keeps from one member to the next: `seen`, `OUT` and what is left. -/
structure Progress where
  seen : List Text
  out : Text
  rest : Text

/-- The end of the input behind the object. -/
def finish (out r : Text) : Option Text := if ws r = [] then some out else none

/-- One pass of the loop of `flat()`. -/
def flatPass (anykey : Bool) (p : Progress) : Progress ⊕ Option Text :=
  match member anykey p.seen p.rest with
  | none => .inr none
  | some (k, l, r) =>
    match ws r with
    | ',' :: r => .inl ⟨k :: p.seen, p.out ++ l, r⟩
    | '}' :: r => .inr (finish (p.out ++ l) r)
    | _ => .inr none

/-- `flat()`: what is in `OUT`, none with `BAD`. -/
def flat (anykey : Bool) (s : Text) : Option Text :=
  match ws s with
  | '{' :: r =>
    match ws r with
    | '}' :: r => finish [] r
    | r => Loop.run (flatPass anykey) none (fun p => p.rest.length) ⟨[], [], r⟩
  | _ => none

/-- What a run of the script leaves. -/
structure Result where
  printed : Text
  status : ℕ
  deriving DecidableEq

/-- `awk -v mode=flat -f json.awk`, with `-v anykey=1` or without. -/
def run (anykey : Bool) (input : Text) : Result :=
  match flat anykey (slurp input) with
  | none => ⟨[], 1⟩
  | some out => ⟨out, 0⟩

end Mu300.FlatJson
