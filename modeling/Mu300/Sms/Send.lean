import Mathlib.Data.Bool.AllAny
import Mu300.Sms.Septets

/-!
# Sending

`cmd_send` of `mu300-sms`: the checks before anything is sent.
-/

namespace Mu300.Sms

open Shell Hex List Char Unicode

/-! ## The command -/

/-- Where the text comes from, in characters. -/
inductive Source : Type where
  /-- the words of the command line -/
  | words (ws : List (List Char))
  /-- `--stdin`; behind the first line if that is the number -/
  | stdin (input : List Char)

/-- The text that stands there: `$*`, or `$(cat)`, which has no NUL and no line feed at its end. -/
def Source.text : Source → List Char
  | .words ws => [' '].intercalate ws
  | .stdin input => captured (input.filter fun c => c.toNat ≠ 0)

def Source.bytes : Source → Text
  | .words ws => [' '].intercalate (ws.map fun w => w.flatMap Unicode.utf8)
  | .stdin input => captured ((input.flatMap Unicode.utf8).filter fun c => c.toNat ≠ 0)

/-- The alphabet that is noted with the message. -/
inductive Coding : Type where
  | gsm
  | ucs2
  deriving DecidableEq

/-- What is sent with `AT+CMGS`. -/
structure Sent where
  len : ℕ
  pdu : Text
  coding : Coding
  deriving DecidableEq

inductive Refusal : Type where
  /-- the number may only contain digits and a leading + -/
  | number
  /-- the number has more than 20 digits -/
  | long
  /-- the message is empty -/
  | empty
  /-- the text is so many characters long; one SMS carries 70 of these -/
  | ucs2 (n : ℕ)
  /-- the text is so many characters long; one SMS carries 160 -/
  | gsm (n : ℕ)
  deriving DecidableEq

/-- `_digits`. -/
def digitsOf (num : Text) : Text := if num.head? = some '+' then num.tail else num

/-- Where the coding scheme is: `_o`. -/
def schemeAt (digits : Text) : ℕ := 2 + 8 + (digits.length + 1) / 2 * 2 + 2

/-- `cut -c`: the coding scheme. -/
def schemeOf (digits pdu : Text) : Text := (pdu.drop (schemeAt digits)).take 2

/-- `cut -c`: two digits of the length. -/
def lengthOf (digits pdu : Text) : Text := (pdu.drop (schemeAt digits + 4)).take 2

/-- The check of the finished PDU. -/
def checked (digits : Text) (enc : ℕ × Text) : Except Refusal Sent :=
  let udl := value (lengthOf digits enc.2)
  if schemeOf digits enc.2 = ['0', '8'] then
    if udl / 2 ≤ 70 then .ok ⟨enc.1, enc.2, .ucs2⟩ else .error (.ucs2 (udl / 2))
  else if udl ≤ 160 then .ok ⟨enc.1, enc.2, .gsm⟩
  else .error (.gsm udl)

/-- `cmd_send`, up to the conversation with the modem. -/
def cmdSend (num : Text) (src : Source) : Except Refusal Sent :=
  let digits := digitsOf num
  if digits = [] ∨ ¬ digits.all isDigit then .error .number
  else if 20 < digits.length then .error .long
  else if src.bytes = [] then .error .empty
  else checked digits (encode num src.bytes)

def ValidNumber (num : Text) : Prop :=
  digitsOf num ≠ [] ∧ (digitsOf num).all isDigit ∧ (digitsOf num).length ≤ 20

instance (num : Text) : Decidable (ValidNumber num) := instDecidableAnd

/-! ## One part -/

variable (text : List Char)

/-- The default alphabet has every character. -/
def plainText : Bool := gsm7Encodable (text.map toNat)

/-- The septets of a text in the default alphabet. -/
def septets : ℕ := ((text.map toNat).flatMap septetsOf).length

/-- What the length field counts: septets, or the octets of 16-bit units. -/
def size : ℕ := if plainText text then septets text else 2 * text.length

def Fits : Prop :=
  if plainText text then septets text ≤ 160 else text.length ≤ 70

/-- The octets that so much data takes. -/
def dataOctets (scheme : Text) (udl : ℕ) : ℕ :=
  if scheme = ['0', '8'] then udl else (7 * udl + 7) / 8

/-- The text fits, and the two digits of the length field say how much data follows them. -/
structure OnePart (num : Text) (text : List Char) (sent : Sent) : Prop where
  fits : Fits text
  length : value (lengthOf (digitsOf num) sent.pdu) = size text
  data : (sent.pdu.drop (schemeAt (digitsOf num) + 6)).length =
    2 * dataOctets (schemeOf (digitsOf num) sent.pdu) (value (lengthOf (digitsOf num) sent.pdu))

/-- The length that passes the check. -/
def limit : ℕ := if plainText text then 160 else 141

/-- The length field has more than two digits, and the first two of them pass the check. -/
def Overlooked : Prop :=
  256 ≤ size text ∧ value ((pad2 (size text)).take 2) ≤ limit text

instance : Decidable (Overlooked text) := instDecidableAnd

/-! ## The text in bytes -/

theorem flatMap_intercalate (ws : List (List Char)) : ([' '].intercalate ws).flatMap Unicode.utf8 =
      [' '].intercalate (ws.map fun w => w.flatMap Unicode.utf8) := by
  induction ws with
  | nil => rfl
  | cons w ws ih =>
    rcases ws with _ | ⟨w', ws⟩
    · simp
    · rw [map_cons, map_cons, intercalate_cons_cons, intercalate_cons_cons, ← map_cons, ← ih,
        flatMap_append, flatMap_append, flatMap_singleton, utf8_of_lt_128 (by decide)]

theorem Source.bytes_eq (src : Source) : src.bytes = src.text.flatMap Unicode.utf8 := by
  cases src with
  | words ws => exact (flatMap_intercalate ws).symm
  | stdin input =>
    have hnul : ∀ t : List Char, (t.filter fun c => c.toNat ≠ 0) = t.filter (· ≠ '\x00') := by
      intro t
      refine filter_congr fun c _ => ?_
      rw [decide_eq_decide]
      exact not_congr ⟨fun h => toNat_inj.1 h, fun h => h ▸ rfl⟩
    rw [Source.bytes, Source.text, hnul, hnul, Unicode.filter_flatMap_utf8 (by decide),
      captured_flatMap_utf8]

/-! ## The encoder -/

variable (n : ℕ)

theorem and_31 : n &&& 31 = n % 32 := Nat.and_two_pow_sub_one_eq_mod n 5

theorem and_15 : n &&& 15 = n % 16 := Nat.and_two_pow_sub_one_eq_mod n 4

theorem and_63 : n &&& 63 = n % 64 := Nat.and_two_pow_sub_one_eq_mod n 6

theorem and_7 : n &&& 7 = n % 8 := Nat.and_two_pow_sub_one_eq_mod n 3

theorem utf8PointsFrom_utf8 (c : Char) (s : Text) :
    utf8PointsFrom (n + 1) (Unicode.utf8 c ++ s) = c.toNat :: utf8PointsFrom n s := by
  have hlt := toNat_lt c
  have hbyte : ∀ {m : ℕ}, m < 256 → (ofNat m).toNat = m := toNat_ofNat_of_lt
  rw [utf8_eq]
  split_ifs with h₁ h₂ h₃
  · rw [singleton_append, utf8PointsFrom]
    simp [if_pos (Nat.lt_succ_of_le h₁)]
  -- the other lengths: the first byte says how many follow
  all_goals
    simp (disch := omega) only [cons_append, nil_append, utf8PointsFrom, indexOfByte, hbyte,
      List.getElem?_cons_zero, List.getElem?_cons_succ, Option.map_some, Option.getD_some, and_7,
        and_15, and_31,
      and_63, drop_succ_cons, drop_zero, if_neg, if_pos]
    congr 1
    omega

theorem utf8Points_flatMap (text : List Char) :
    utf8Points (text.flatMap Unicode.utf8) = text.map toNat := by
  have hfuel : ∀ n, (text.flatMap Unicode.utf8).length ≤ n →
      utf8PointsFrom n (text.flatMap Unicode.utf8) = text.map toNat := by
    induction text with
    | nil =>
      intro n _
      cases n <;> rfl
    | cons c text ih =>
      intro n hn
      have hpos := length_pos_iff.2 (utf8_ne_nil c)
      rw [flatMap_cons, length_append] at hn
      obtain ⟨n, rfl⟩ : ∃ k, n = k + 1 := ⟨n - 1, by omega⟩
      rw [flatMap_cons, utf8PointsFrom_utf8 n c, map_cons, ih n (by omega)]
  exact hfuel _ le_rfl

theorem length_gsm7Pack (cp : List ℕ) :
    (gsm7Pack cp).length = 2 * ((7 * (cp.flatMap septetsOf).length + 7) / 8) := by
  obtain ⟨os, hos, hlen, -⟩ := gsm7Pack_octets cp
  rw [hos, length_octets, hlen]

theorem length_ucs2Pack {cp : List ℕ} (h : ∀ v ∈ cp, v ≤ 0xFFFF) :
    (ucs2Pack cp).length = 2 * (cp.length * 2) := by
  induction cp with
  | nil => rfl
  | cons v cp ih =>
    have hv := h v mem_cons_self
    have hrest := ih fun w hw => h w (.tail _ hw)
    rw [ucs2Pack, flatMap_cons, length_append, length_append, ← ucs2Pack, hrest,
      length_pad2_of_lt (by omega), length_pad2_of_lt (by omega), length_cons]
    omega

theorem length_bcdEncode (num : Text) : (bcdEncode num).length = (num.length + 1) / 2 * 2 := by
  fun_induction bcdEncode num with
  | case1 => rfl
  | case2 a => simp
  | case3 a b num ih =>
    rw [length_cons, length_cons, ih, length_cons, length_cons]
    omega

/-- What follows the length field. -/
def dataOf (text : List Char) : Text :=
  if plainText text then gsm7Pack (text.map toNat) else ucs2Pack (text.map toNat)

theorem userData_eq (text : List Char) : userData (text.flatMap Unicode.utf8) =
      ⟨if plainText text then ['0', '0'] else ['0', '8'], size text, dataOf text⟩ := by
  rw [userData, utf8Points_flatMap, size, septets, dataOf, ← plainText]
  split <;> simp [Nat.mul_comm]

variable {text : List Char}

theorem length_dataOf (h : ∀ c ∈ text, c.toNat ≤ 0xFFFF) : (dataOf text).length =
      2 * dataOctets (if plainText text then ['0', '0'] else ['0', '8']) (size text) := by
  rw [dataOf, size, dataOctets]
  split
  · rw [length_gsm7Pack, if_neg (by decide), septets]
  · rw [length_ucs2Pack (by simpa using h), if_pos rfl, length_map, Nat.mul_comm 2 text.length]

/-! ## The check -/

variable {num : Text} {src : Source} {sent : Sent}

theorem filter_isDigit (h : ValidNumber num) : num.filter isDigit = digitsOf num := by
  obtain ⟨-, hall, -⟩ := h
  have hself : (digitsOf num).filter isDigit = digitsOf num := filter_eq_self.2 (all_eq_true.1 hall)
  rw [← hself, digitsOf]
  split
  · rename_i hplus
    rcases num with _ | ⟨ch, num⟩
    · rfl
    · obtain rfl : ch = '+' := Option.some.inj hplus
      rw [filter_cons_of_neg (by decide), tail_cons]
  · rfl

theorem encode_eq (h : ValidNumber num) (s : Text) :
    ∃ head, head.length = schemeAt (digitsOf num) ∧ (encode num s).2 =
      head ++ ((userData s).dcs ++ ['A', 'A'] ++
        (pad2 (userData s).udl ++ (userData s).ud)) := by
  have hlen : (digitsOf num).length < 256 := Nat.lt_of_le_of_lt h.2.2 (by decide)
  refine ⟨['0', '0'] ++ (['1', '1', '0', '0'] ++ pad2 (digitsOf num).length ++
    (if num.head? = some '+' then ['9', '1'] else ['8', '1']) ++ bcdEncode (digitsOf num) ++
      ['0', '0']), ?_, ?_⟩
  · have htoa : (if num.head? = some '+' then ['9', '1'] else ['8', '1']).length = 2 := by
      split <;> rfl
    simp only [length_append, length_cons, length_nil, length_pad2_of_lt hlen, htoa,
      length_bcdEncode, schemeAt]
    omega
  · simp [encode, filter_isDigit h]

theorem two_le_length_pad2 : 2 ≤ (pad2 n).length := by
  rcases Nat.lt_or_ge n 256 with h | h
  · exact (length_pad2_of_lt h).ge
  · exact (length_pad2_of_le h).le

theorem encode_fields (h : ValidNumber num) (text : List Char) :
    let pdu := (encode num (text.flatMap Unicode.utf8)).2
    schemeOf (digitsOf num) pdu = (if plainText text then ['0', '0'] else ['0', '8']) ∧
      lengthOf (digitsOf num) pdu = (pad2 (size text)).take 2 ∧
      (size text < 256 → pdu.drop (schemeAt (digitsOf num) + 6) = dataOf text) := by
  obtain ⟨head, hlen, hpdu⟩ := encode_eq h (text.flatMap Unicode.utf8)
  have hdcs : (if plainText text then ['0', '0'] else ['0', '8']).length = 2 := by split <;> rfl
  rw [userData_eq] at hpdu
  have hbehind : ∀ k, (encode num (text.flatMap Unicode.utf8)).2.drop
      (schemeAt (digitsOf num) + (4 + k)) = (pad2 (size text) ++ dataOf text).drop k := by
    intro k
    rw [hpdu, ← hlen, ← drop_drop, drop_left, ← drop_drop]
    congr 1
    exact drop_left' (by rw [length_append, hdcs]; rfl)
  refine ⟨?_, ?_, fun hsmall => ?_⟩
  · rw [schemeOf, hpdu, ← hlen, drop_left, append_assoc]
    exact take_left' hdcs
  · rw [lengthOf, hbehind 0, drop_zero, take_append_of_le_length (two_le_length_pad2 _)]
  · rw [hbehind 2, drop_left' (length_pad2_of_lt hsmall)]

theorem value_lengthOf (h : ValidNumber num) (hsmall : size text < 256) :
    value (lengthOf (digitsOf num) (encode num (text.flatMap Unicode.utf8)).2) = size text := by
  rw [(encode_fields h text).2.1, value_take_pad2, length_pad2_of_lt hsmall, Nat.sub_self,
    pow_zero, Nat.div_one]

theorem fits_iff (text : List Char) : Fits text ↔ size text ≤ limit text := by
  rw [Fits, size, limit]
  split
  · exact .rfl
  · omega

theorem cmdSend_error (h : ¬ ValidNumber num ∨ src.text = []) (sent : Sent) :
    cmdSend num src ≠ .ok sent := by
  rw [cmdSend]
  split_ifs with hdigits hlong hempty
  · nofun
  · nofun
  · nofun
  · exfalso
    rcases h with hnum | htext
    · rw [not_or, not_not] at hdigits
      exact hnum ⟨hdigits.1, hdigits.2, Nat.not_lt.1 hlong⟩
    · rw [src.bytes_eq, htext] at hempty
      exact hempty rfl

theorem cmdSend_ok_iff (h : ValidNumber num) (hne : src.text ≠ []) :
    (∃ sent, cmdSend num src = .ok sent) ↔
      value ((pad2 (size src.text)).take 2) ≤ limit src.text := by
  obtain ⟨hscheme, hlength, -⟩ := encode_fields h src.text
  have hbytes : src.bytes ≠ [] := by
    obtain ⟨c, cs, hc⟩ := exists_cons_of_ne_nil hne
    rw [src.bytes_eq, hc, flatMap_cons]
    exact append_ne_nil_of_left_ne_nil (utf8_ne_nil c) _
  have hdigits : ¬ (digitsOf num = [] ∨ ¬ (digitsOf num).all isDigit) := by
    rw [not_or, not_not]
    exact ⟨h.1, h.2.1⟩
  have hsend : cmdSend num src = checked (digitsOf num)
      (encode num (src.text.flatMap Unicode.utf8)) := by
    rw [cmdSend, ← src.bytes_eq]
    simp only [if_neg hdigits, if_neg (Nat.not_lt.2 h.2.2), if_neg hbytes]
  rw [hsend]
  simp only [checked, hscheme, hlength, limit]
  by_cases hp : plainText src.text
  · rw [if_pos hp, if_neg (by decide), if_pos hp]
    split_ifs with hle
    · exact ⟨fun _ => hle, fun _ => ⟨_, rfl⟩⟩
    · exact ⟨fun ⟨_, hs⟩ => (nomatch hs), fun h' => absurd h' hle⟩
  · rw [if_neg hp, if_pos rfl, if_neg hp]
    split_ifs with hle
    · exact ⟨fun _ => by omega, fun _ => ⟨_, rfl⟩⟩
    · exact ⟨fun ⟨_, hs⟩ => (nomatch hs), fun h' => absurd h' (by omega)⟩

theorem pdu_of_cmdSend (h : cmdSend num src = .ok sent) :
    sent.pdu = (encode num (src.text.flatMap Unicode.utf8)).2 := by
  rw [cmdSend, src.bytes_eq] at h
  simp only [checked] at h
  split_ifs at h <;> cases h <;> rfl

theorem onePart_of_lt (h : ValidNumber num)
    (htext : ∀ c ∈ src.text, c.toNat ≤ 0xFFFF) (hne : src.text ≠ []) (hsmall : size src.text < 256)
    (hs : cmdSend num src = .ok sent) : OnePart num src.text sent := by
  obtain ⟨hscheme, -, hdata⟩ := encode_fields h src.text
  have hvalue := value_lengthOf h hsmall
  have hle := (cmdSend_ok_iff h hne).1 ⟨sent, hs⟩
  rw [← (encode_fields h src.text).2.1, hvalue] at hle
  rw [← pdu_of_cmdSend hs] at hscheme hdata hvalue
  refine ⟨(fits_iff _).2 hle, hvalue, ?_⟩
  rw [hdata hsmall, length_dataOf htext, hscheme, hvalue]

/-- **Only one-part texts are sent**, for every number and text: what is accepted fits one message
and has a length field that matches its data, exactly if it is not so that the length needs more
than two digits and the first two of them pass for a short one. -/
theorem one_part_iff (num : Text) (src : Source) (htext : ∀ c ∈ src.text, c.toNat ≤ 0xFFFF) :
    (∀ sent, cmdSend num src = .ok sent → OnePart num src.text sent) ↔
      ¬ (ValidNumber num ∧ Overlooked src.text) := by
  by_cases hnum : ValidNumber num
  swap
  · exact ⟨fun _ h => hnum h.1, fun _ sent hs => absurd hs (cmdSend_error (.inl hnum) sent)⟩
  by_cases hne : src.text = []
  · refine ⟨fun _ h => ?_, fun _ sent hs => absurd hs (cmdSend_error (.inr hne) sent)⟩
    rw [hne] at h
    exact absurd h.2.1 (by decide)
  rcases Nat.lt_or_ge (size src.text) 256 with hsmall | hlarge
  · exact ⟨fun _ h => absurd h.2.1 (by omega),
      fun _ sent hs => onePart_of_lt hnum htext hne hsmall hs⟩
  constructor
  · rintro h ⟨-, -, hlead⟩
    obtain ⟨sent, hs⟩ := (cmdSend_ok_iff hnum hne).2 hlead
    have hfits := (fits_iff _).1 (h sent hs).fits
    have hlimit : limit src.text < 256 := by
      rw [limit]
      split <;> decide
    omega
  · intro h sent hs
    exact absurd ⟨hnum, hlarge, (cmdSend_ok_iff hnum hne).1 ⟨sent, hs⟩⟩ h

/-- Two words, joined by a blank. -/
theorem one_part_short :
    (∀ c ∈ (Source.words ["Hi", "there"]).text, c.toNat ≤ 0xFFFF) ∧
      ∀ sent, cmdSend "+4917" (.words ["Hi", "there"]) = .ok sent →
        OnePart "+4917" (Source.words ["Hi", "there"]).text sent :=
  have htext := all_iff_forall_prop.1 (by decide)
  ⟨htext, (one_part_iff _ _ htext).2 (by decide)⟩

/-- 256 letters: the length field is `100`, and its first two digits pass for sixteen. -/
theorem long_text_sent :
    let src := Source.stdin (replicate 256 'a')
    plainText src.text ∧ septets src.text = 256 ∧ (cmdSend "123" src).isOk := by
  decide +kernel

end Mu300.Sms
