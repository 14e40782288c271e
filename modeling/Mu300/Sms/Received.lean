import Mu300.Lib.Unicode
import Mu300.Sms.Codec

/-!
# Received Unicode texts

What the decoder prints of a text that comes in UTF-16: its units, each as if it were a code point.
Before that it has to find them. It knows the coding scheme by the two alphabet bits alone, which
the message-waiting schemes use for something else, and takes a header of length 0 for none.
-/

namespace Mu300.Sms

open Shell List Unicode

/-! ## Messages -/

/-- An element of the header. -/
structure Element where
  iei : UInt8
  data : List UInt8

def Element.octets (e : Element) : List UInt8 := e.iei :: UInt8.ofNat e.data.length :: e.data

/-- The header as it is sent, with its length in front. -/
def headerOctets : Option (List Element) → List UInt8
  | none => []
  | some es => UInt8.ofNat (es.flatMap Element.octets).length :: es.flatMap Element.octets

/-- The coding schemes of a text in UTF-16: those with the alphabet UCS2, and message waiting. -/
def Ucs2 (dcs : UInt8) : Prop := dcs.toNat &&& 0x0C = 0x08 ∨ dcs.toNat &&& 0xF4 = 0xE0

def unitOctets (u : ℕ) : List UInt8 := [UInt8.ofNat (u / 256), UInt8.ofNat (u % 256)]

def textOctets (text : List Char) : List UInt8 := (text.flatMap Unicode.utf16).flatMap unitOctets

/-- An SMS-DELIVER with a text in UTF-16. -/
structure Deliver where
  smsc : List UInt8
  first : UInt8
  addressLength : UInt8
  toa : UInt8
  address : List UInt8
  pid : UInt8
  dcs : UInt8
  scts : List UInt8
  header : Option (List Element)
  text : List Char
  smsc_length : smsc.length < 256
  deliver : first.toNat &&& 3 = 0
  udhi : first.toNat &&& 64 ≠ 0 ↔ header.isSome
  /-- the length counts semi-octets -/
  address_length : address.length = (addressLength.toNat + 1) / 2
  ucs2 : Ucs2 dcs
  scts_length : scts.length = 7
  fits : (headerOctets header ++ textOctets text).length ≤ 140
  nonzero : ∀ c ∈ text, c.toNat ≠ 0

namespace Deliver

variable (m : Deliver)

/-- What is in front of the address. -/
def start : List UInt8 := UInt8.ofNat m.smsc.length :: m.smsc

/-- What is in front of the timestamp. -/
def origin : List UInt8 := m.start ++ m.first :: m.addressLength :: m.toa :: m.address

def userData : List UInt8 := headerOctets m.header ++ textOctets m.text

def octets : List UInt8 :=
  m.origin ++ m.pid :: m.dcs :: (m.scts ++ UInt8.ofNat m.userData.length :: m.userData)

/-- `decode_pdu` finds the units: the alphabet bits say UCS2, and a header is not empty. -/
def Readable : Prop := m.dcs.toNat &&& 12 = 8 ∧ m.header ≠ some []

end Deliver

/-! ## Octets of a PDU -/

variable (before : List UInt8)

theorem byteat_append_cons (b : UInt8) (after : List UInt8) :
    byteat (Hex.octets (before ++ b :: after)) before.length = b.toNat := by
  have hb := UInt8.toNat_lt b
  have hlen : (Hex.octets before).length = before.length * 2 := by
    rw [Hex.length_octets, Nat.mul_comm]
  have hhigh : hexAt (Hex.octets (before ++ b :: after)) (before.length * 2) = b.toNat / 16 := by
    rw [hexAt, Hex.octets_append, List.getElem?_append_right hlen.le, hlen, Nat.sub_self,
      Hex.octets_cons]
    exact Hex.hexval_digit (by omega)
  have hlow : hexAt (Hex.octets (before ++ b :: after)) (before.length * 2 + 1) = b.toNat % 16 := by
    rw [hexAt, Hex.octets_append, List.getElem?_append_right (by omega), hlen,
      Nat.add_sub_cancel_left, Hex.octets_cons]
    exact Hex.hexval_digit (by omega)
  rw [byteat, hhigh, hlow]
  omega

theorem byteat_eq {os l r : List UInt8} {b : UInt8} {i : ℕ}
    (h : os = l ++ b :: r) (hi : i = l.length) : byteat (Hex.octets os) i = b.toNat := by
  rw [h, hi, byteat_append_cons]

theorem length_flatMap_unitOctets (us : List ℕ) :
    (us.flatMap unitOctets).length = 2 * us.length := by
  induction us with
  | nil => rfl
  | cons u us ih =>
    rw [flatMap_cons, length_append, ih, length_cons]
    simp only [unitOctets, length_cons, length_nil]
    omega

theorem byteat_unit (after : List UInt8) {u : ℕ} (hu : u < 0x10000) :
    byteat (Hex.octets (before ++ unitOctets u ++ after)) before.length * 256 +
      byteat (Hex.octets (before ++ unitOctets u ++ after)) (before.length + 1) = u := by
  have hhigh : byteat (Hex.octets (before ++ unitOctets u ++ after)) before.length = u / 256 := by
    rw [byteat_eq (l := before) (b := UInt8.ofNat (u / 256))
      (r := UInt8.ofNat (u % 256) :: after) (by simp [unitOctets]) rfl]
    exact UInt8.toNat_ofNat_of_lt' (show _ < 256 by omega)
  have hlow : byteat (Hex.octets (before ++ unitOctets u ++ after)) (before.length + 1) =
      u % 256 := by
    rw [byteat_eq (l := before ++ [UInt8.ofNat (u / 256)]) (b := UInt8.ofNat (u % 256))
      (r := after) (by simp [unitOctets]) (by simp)]
    exact UInt8.toNat_ofNat_of_lt' (show _ < 256 by omega)
  omega

theorem ucs2Decode_units {us : List ℕ} (hus : ∀ u ∈ us, u < 0x10000) :
    ucs2Decode (Hex.octets (before ++ us.flatMap unitOctets)) before.length (2 * us.length) =
      us.flatMap utf8 := by
  rw [ucs2Decode, show (2 * us.length + 1) / 2 = us.length by omega]
  induction us generalizing before with
  | nil => rfl
  | cons u us ih =>
    have hrest := ih (before ++ unitOctets u) fun v hv => hus v (.tail _ hv)
    have hfirst := byteat_unit before (us.flatMap unitOctets) (hus u mem_cons_self)
    have hsplit : before ++ (u :: us).flatMap unitOctets =
        before ++ unitOctets u ++ us.flatMap unitOctets := by
      rw [flatMap_cons, append_assoc]
    rw [hsplit, length_cons, range_succ_eq_map, flatMap_cons, flatMap_map, flatMap_cons, ← hrest]
    refine congrArg₂ _ (congrArg utf8 hfirst) (flatMap_congr fun k _ => ?_)
    rw [length_append, show (unitOctets u).length = 2 from rfl,
      show before.length + 2 * k.succ = before.length + 2 + 2 * k by omega]

/-! ## Decoding -/

namespace Deliver

variable (m : Deliver)

def pdu : Text := Hex.octets m.octets

theorem length_start : m.start.length = 1 + m.smsc.length := Nat.add_comm _ _

theorem length_origin :
    m.origin.length = 1 + m.smsc.length + 3 + (m.addressLength.toNat + 1) / 2 := by
  simp only [origin, length_append, length_cons, m.length_start, m.address_length]
  omega

theorem byteat_zero : byteat m.pdu 0 = m.smsc.length := by
  have hlen : (UInt8.ofNat m.smsc.length).toNat = m.smsc.length :=
    UInt8.toNat_ofNat_of_lt' m.smsc_length
  rw [← hlen]
  exact byteat_append_cons [] _ _

theorem byteat_first : byteat m.pdu (1 + m.smsc.length) = m.first.toNat := by
  refine byteat_eq (l := m.start) (r := m.addressLength :: m.toa :: (m.address ++
    m.pid :: m.dcs :: (m.scts ++ UInt8.ofNat m.userData.length :: m.userData))) ?_
      m.length_start.symm
  simp [octets, origin]

theorem byteat_addressLength : byteat m.pdu (1 + m.smsc.length + 1) = m.addressLength.toNat := by
  refine byteat_eq (l := m.start ++ [m.first]) (r := m.toa :: (m.address ++
    m.pid :: m.dcs :: (m.scts ++ UInt8.ofNat m.userData.length :: m.userData))) ?_ ?_
  · simp [octets, origin]
  · rw [length_append, m.length_start, length_singleton]

theorem byteat_dcs : byteat m.pdu (m.origin.length + 1) = m.dcs.toNat := by
  refine byteat_eq (l := m.origin ++ [m.pid])
    (r := m.scts ++ UInt8.ofNat m.userData.length :: m.userData) ?_ ?_
  · simp [octets]
  · rw [length_append, length_singleton]

/-- What is in front of the user data. -/
def front : List UInt8 :=
  m.origin ++ m.pid :: m.dcs :: m.scts ++ [UInt8.ofNat m.userData.length]

theorem octets_eq : m.octets = m.front ++ m.userData := by
  simp [octets, front]

theorem length_front : m.front.length = m.origin.length + 10 := by
  simp [front, m.scts_length]

theorem byteat_udl : byteat m.pdu (m.origin.length + 9) = m.userData.length := by
  have hlen : (UInt8.ofNat m.userData.length).toNat = m.userData.length :=
    UInt8.toNat_ofNat_of_lt' (Nat.lt_of_le_of_lt m.fits (by decide))
  rw [← hlen]
  refine byteat_eq (l := m.origin ++ m.pid :: m.dcs :: m.scts) (r := m.userData) ?_ ?_
  · simp [octets]
  · simp [m.scts_length]

/-- The octets that `decode_pdu` takes for the header. -/
def skipped : ℕ :=
  let udhl := if m.first.toNat &&& 64 ≠ 0 then byteat m.pdu (m.origin.length + 10) else 0
  if udhl ≠ 0 then udhl + 1 else 0

/-- The length in front of the header. -/
theorem byteat_udhl {es : List Element} (hh : m.header = some es) :
    byteat m.pdu (m.origin.length + 10) = (es.flatMap Element.octets).length := by
  have hfits := m.fits
  rw [hh, headerOctets, length_append, length_cons] at hfits
  have hlen : (UInt8.ofNat (es.flatMap Element.octets).length).toNat =
      (es.flatMap Element.octets).length := UInt8.toNat_ofNat_of_lt' (show _ < 256 by omega)
  rw [← hlen, ← m.length_front]
  refine byteat_eq (r := es.flatMap Element.octets ++ textOctets m.text) ?_ rfl
  rw [m.octets_eq, userData, hh, headerOctets, cons_append]

theorem skipped_eq {es : List Element} (hh : m.header = some es) : m.skipped =
    if (es.flatMap Element.octets).length ≠ 0 then (es.flatMap Element.octets).length +
      1 else 0 := by
  have hyes : m.first.toNat &&& 64 ≠ 0 := m.udhi.2 (by rw [hh]; rfl)
  simp only [skipped, if_pos hyes, m.byteat_udhl hh]

theorem header_skipped (h : m.header ≠ some []) : m.skipped = (headerOctets m.header).length := by
  rcases hh : m.header with _ | es
  · have hno : ¬ (m.first.toNat &&& 64 ≠ 0) := fun hb => by
      have hsome := m.udhi.1 hb
      rw [hh] at hsome
      cases hsome
    simp only [skipped, if_neg hno]
    rfl
  · rcases es with _ | ⟨e, es⟩
    · exact absurd hh h
    · rw [m.skipped_eq hh, if_pos (by simp [Element.octets])]
      rfl

/-- **What is decoded**: units behind what is skipped, or septets. -/
theorem decodePdu_text (idx : Text) : ∃ r, decodePdu idx m.pdu = some r ∧
    (m.dcs.toNat &&& 12 = 8 → r.text = escField
      (ucs2Decode m.pdu (m.front.length + m.skipped) (m.userData.length - m.skipped))) ∧
    (m.dcs.toNat &&& 12 = 0 → ∃ off n skip lang langx,
      r.text = escField (gsm7Decode m.pdu off n skip lang langx)) := by
  simp only [decodePdu, m.byteat_zero, m.byteat_first, m.byteat_addressLength, ← m.length_origin,
    m.byteat_dcs, m.byteat_udl, m.deliver, ne_eq, not_true_eq_false, if_false]
  refine ⟨_, rfl, fun h => ?_, fun h => ?_⟩
  · simp only [h, if_true, m.length_front]
    rfl
  · simp only [h, OfNat.zero_ne_ofNat, if_false]
    exact ⟨_, _, _, _, _, rfl⟩

/-- Where they are found, each unit as if it were a code point. -/
theorem text_of_readable (h : m.Readable) : escField
      (ucs2Decode m.pdu (m.front.length + m.skipped) (m.userData.length - m.skipped)) =
    escField ((m.text.flatMap Unicode.utf16).flatMap utf8) := by
  have hunits : ∀ u ∈ m.text.flatMap Unicode.utf16, u < 0x10000 := by
    intro u hu
    obtain ⟨c, -, hc⟩ := mem_flatMap.1 hu
    exact lt_of_mem_utf16 hc
  have hdec := ucs2Decode_units (m.front ++ headerOctets m.header) hunits
  rw [← textOctets, append_assoc, ← userData, ← m.octets_eq, ← pdu, length_append,
    ← length_flatMap_unitOctets, ← textOctets] at hdec
  have hlen : m.userData.length - (headerOctets m.header).length = (textOctets m.text).length := by
    rw [userData, length_append, Nat.add_sub_cancel_left]
  rw [m.header_skipped h.2, hlen, hdec]

end Deliver

/-! ## Fields of a line -/

theorem mem_escField {s : Text} {ch : Char} (h : ch ∈ escField s) :
    ch ≠ '\t' ∧ ch ≠ '\n' ∧ ch ≠ '\r' := by
  obtain ⟨hmem, hr⟩ := mem_filter.1 h
  obtain ⟨x, -, hx⟩ := mem_map.1 hmem
  refine ⟨?_, ?_, of_decide_eq_true hr⟩
  · rintro rfl
    split_ifs at hx with hcase
    · exact absurd hx (by decide)
    · exact hcase (.inl hx)
  · rintro rfl
    split_ifs at hx with hcase
    · exact absurd hx (by decide)
    · exact hcase (.inr hx)

theorem mem_decimal {n : ℕ} {ch : Char} (h : ch ∈ decimal n) : ch.isDigit :=
  Nat.isDigit_of_mem_toDigits (by decide) (by decide) h

/-- Neither a tab nor a line feed. -/
def Plain (t : Text) : Prop := ∀ ch ∈ t, ch ≠ '\t' ∧ ch ≠ '\n'

instance : DecidablePred Plain := fun t => decidableBAll _ t

theorem plain_escField (s : Text) : Plain (escField s) := fun _ h =>
  ⟨(mem_escField h).1, (mem_escField h).2.1⟩

theorem plain_decimal (n : ℕ) : Plain (decimal n) := by
  intro ch h
  have hd := mem_decimal h
  refine ⟨?_, ?_⟩
  · rintro rfl
    exact absurd hd (by decide)
  · rintro rfl
    exact absurd hd (by decide)

theorem plain_ref (ref : Option ℕ) : Plain ((ref.map decimal).getD []) := by
  rcases ref with _ | n
  · exact nofun
  · exact plain_decimal n

theorem Plain.append {s t : Text} (hs : Plain s) (ht : Plain t) : Plain (s ++ t) := fun ch h =>
  (mem_append.1 h).elim (hs ch) (ht ch)

theorem plain_pick (d : ℕ) : Plain (pick "0123456789" d) := by
  intro ch h
  have hall : Plain "0123456789" := by decide
  exact hall ch (mem_of_getElem? (Option.mem_toList.1 h))

theorem plain_tsDecode (h : Text) (off : ℕ) : Plain (tsDecode h off) := by
  have hsep : ∀ i, Plain (tsSeparator i) := by
    intro i
    rw [tsSeparator]
    split_ifs <;> decide
  refine .append (by decide) fun ch hch => ?_
  obtain ⟨i, -, hi⟩ := mem_flatMap.1 hch
  exact ((plain_pick _).append (plain_pick _)).append (hsep i) ch hi

/-- A record that can be read back from its line. -/
def Record.Plain (r : Record) : Prop := ∀ f ∈ r.fields, Sms.Plain f

variable {r : Record} {c : Char} (text : List Char)

theorem Record.splitOn_line (h : r.Plain) : r.line.splitOn '\t' = r.fields :=
  splitOn_intercalate '\t' (fun f hf hmem => (h f hf '\t' hmem).1 rfl) (cons_ne_nil _ _)

theorem Record.plain (hidx : Sms.Plain r.idx) (hsender : Sms.Plain r.sender)
    (hts : Sms.Plain r.ts) (htext : Sms.Plain r.text) : r.Plain := by
  intro f hf
  simp only [Record.fields, mem_cons, not_mem_nil, or_false] at hf
  rcases hf with rfl | rfl | rfl | rfl | rfl | rfl | rfl
  · exact hidx
  · exact hsender
  · exact hts
  · exact plain_ref _
  · exact plain_decimal _
  · exact plain_decimal _
  · exact htext

theorem decodePdu_plain {idx h : Text} (hr : decodePdu idx h = some r) : r.Plain := by
  simp only [decodePdu] at hr
  split at hr
  · cases hr
  · cases hr
    exact Record.plain (plain_escField _) (plain_escField _) (plain_tsDecode _ _) (plain_escField _)

/-! ## Characters -/

@[simp] theorem escField_append (s t : Text) : escField (s ++ t) = escField s ++ escField t := by
  rw [escField, map_append, filter_append]
  rfl

theorem utf8_toNat (h : c.toNat ≤ 0xFFFF) : utf8 c.toNat = Unicode.utf8 c := by
  rw [utf8]
  split_ifs with h₁ h₂
  · rw [utf8_of_lt_128 h₁, Char.ofNat_toNat]
  · rw [utf8_of_lt_2048 h₁ h₂]
  · rw [utf8_of_le_65535 h₂ h]

theorem escField_of_le {s : Text} (h : ∀ ch ∈ s, 128 ≤ ch.toNat) : escField s = s := by
  have hmap : (s.map fun ch => if ch = '\t' ∨ ch = '\n' then ' ' else ch) = s := by
    refine (map_congr_left fun ch hch => ?_).trans (map_id _)
    have hne := h ch hch
    refine if_neg ?_
    rintro (rfl | rfl)
    · exact absurd hne (by decide)
    · exact absurd hne (by decide)
  rw [escField, hmap, filter_eq_self]
  intro ch hch
  refine decide_eq_true ?_
  rintro rfl
  exact absurd (h _ hch) (by decide)

theorem escField_utf8 (c : Char) :
    escField (Unicode.utf8 c) = (escField [c]).flatMap Unicode.utf8 := by
  by_cases h : c.toNat < 128
  · have hascii : ∀ d ∈ escField [c], Unicode.utf8 d = [d] := by
      intro d hd
      refine utf8_of_lt_128 ?_
      obtain ⟨x, hx, rfl⟩ := mem_map.1 (mem_of_mem_filter hd)
      rw [mem_singleton.1 hx]
      split_ifs
      · decide
      · exact h
    rw [utf8_of_lt_128 h, flatMap_congr hascii, flatMap_singleton']
  · have hsingle : escField [c] = [c] := by
      refine escField_of_le fun ch hch => ?_
      rw [mem_singleton.1 hch]
      omega
    rw [hsingle, flatMap_singleton, escField_of_le fun ch hch => le_toNat_of_mem_utf8 h hch]

theorem escField_flatMap_utf8 :
    escField (text.flatMap Unicode.utf8) = (escField text).flatMap Unicode.utf8 := by
  induction text with
  | nil => rfl
  | cons c text ih =>
    rw [flatMap_cons, escField_append, ih, escField_utf8, ← flatMap_append, ← escField_append,
      singleton_append]

theorem length_escField_pair (h : 0xFFFF < c.toNat) :
    (escField ((Unicode.utf16 c).flatMap utf8)).length = 6 := by
  obtain ⟨hi, lo, heq, hhi, hhi', hlo, hlo'⟩ := utf16_of_lt h
  have hthree : ∀ u, 0xD800 ≤ u → u < 0xE000 → (escField (utf8 u)).length = 3 := by
    intro u hu hu'
    rw [utf8, if_neg (by omega), if_neg (by omega), escField_of_le]
    · rfl
    · intro ch hch
      simp only [mem_cons, not_mem_nil, or_false] at hch
      rcases hch with rfl | rfl | rfl <;> rw [toNat_ofNat_of_lt (by omega)] <;> omega
  rw [heq, flatMap_cons, flatMap_singleton, escField_append, length_append,
    hthree hi hhi (by omega), hthree lo (by omega) hlo']

theorem length_escField_char (h : 0xFFFF < c.toNat) : (escField (Unicode.utf8 c)).length = 4 := by
  rw [escField_of_le fun ch hch => le_toNat_of_mem_utf8 (by omega) hch,
    length_utf8_of_lt h]

theorem length_printed :
    (escField ((text.flatMap Unicode.utf16).flatMap utf8)).length =
    (escField (text.flatMap Unicode.utf8)).length +
        2 * text.countP fun c => 0xFFFF < c.toNat := by
  induction text with
  | nil => rfl
  | cons c text ih =>
    rw [flatMap_cons, flatMap_append, escField_append, length_append, ih,
      flatMap_cons, escField_append, length_append, countP_cons]
    by_cases h : 0xFFFF < c.toNat
    · rw [length_escField_pair h, length_escField_char h, if_pos (decide_eq_true h)]
      omega
    · have hle : c.toNat ≤ 0xFFFF := Nat.not_lt.1 h
      rw [utf16_of_le hle, flatMap_singleton, utf8_toNat hle, if_neg (by simpa using h)]
      omega

theorem printed_iff :
    escField ((text.flatMap Unicode.utf16).flatMap utf8) = (escField text).flatMap Unicode.utf8 ↔
      ∀ c ∈ text, c.toNat ≤ 0xFFFF := by
  rw [← escField_flatMap_utf8]
  constructor
  · intro heq c hc
    have hlen := length_printed text
    rw [heq] at hlen
    have hzero : text.countP (fun c => 0xFFFF < c.toNat) = 0 := by omega
    exact Nat.not_lt.1 fun hlt => countP_eq_zero.1 hzero c hc (decide_eq_true hlt)
  · intro h
    rw [flatMap_assoc]
    refine congrArg escField (flatMap_congr fun c hc => ?_)
    rw [utf16_of_le (h c hc), flatMap_singleton, utf8_toNat (h c hc)]

/-! ## What is not found -/

/-- A character that cannot come out of something else: its first byte is not one of the 7-bit
alphabets' (`2` is where the euro sign is), and its first octet is not a carriage return. -/
def Telling (c : Char) : Prop := 0x400 ≤ c.toNat ∧ c.toNat / 4096 ≠ 2 ∧ c.toNat / 256 ≠ 13

/-- A byte that such a character can begin with. -/
def Lead (b : Char) : Prop := 0xD0 ≤ b.toNat ∧ b.toNat ≠ 0xE2

instance : DecidablePred Lead := fun _ => inferInstanceAs (Decidable (_ ∧ _))

theorem Telling.lead (h : Telling c) : ∃ b bs, Unicode.utf8 c = b :: bs ∧ Lead b := by
  have hlt := toNat_lt c
  obtain ⟨hle, htwo, -⟩ := h
  rw [utf8_eq, if_neg (by omega)]
  split_ifs
  all_goals
    refine ⟨_, _, rfl, ?_⟩
    rw [Lead, toNat_ofNat_of_lt (by omega)]
    omega

theorem Telling.unit (h : Telling c) :
    ∃ u us, Unicode.utf16 c = u :: us ∧ u < 0x10000 ∧ u / 256 ≠ 13 := by
  obtain ⟨-, -, hcr⟩ := h
  rcases Nat.lt_or_ge 0xFFFF c.toNat with hlt | hle
  · obtain ⟨hi, lo, heq, hhi, hhi', -⟩ := utf16_of_lt hlt
    exact ⟨hi, [lo], heq, by omega, by omega⟩
  · exact ⟨c.toNat, [], utf16_of_le hle, by omega, hcr⟩

theorem Telling.head_printed (h : Telling c) :
    ∃ b ∈ ((escField (c :: text)).flatMap Unicode.utf8).head?, Lead b := by
  obtain ⟨b, bs, heq, hb⟩ := h.lead
  have hc : escField [c] = [c] := escField_of_le fun ch hch => by
    rw [mem_singleton.1 hch]
    exact le_trans (by decide) h.1
  refine ⟨b, ?_, hb⟩
  rw [← singleton_append, escField_append, hc, singleton_append, flatMap_cons, heq]
  rfl

theorem eq_or_mem_of_mem_escField {s : Text} {ch : Char} (h : ch ∈ escField s) :
    ch = ' ' ∨ ch ∈ s := by
  obtain ⟨x, hx, rfl⟩ := mem_map.1 (mem_of_mem_filter h)
  split_ifs
  · exact .inl rfl
  · exact .inr hx

theorem not_lead_escField {s : Text} (h : ∀ b ∈ s, ¬ Lead b) {b : Char} (hb : b ∈ escField s) :
    ¬ Lead b := by
  rcases eq_or_mem_of_mem_escField hb with rfl | hmem
  · decide
  · exact h b hmem

theorem not_lead_septet (lang : ℕ) {sept : ℕ} (hs : sept < 128) :
    (∀ b ∈ utf8 (septetChar sept lang), ¬ Lead b) ∧
      ∀ b ∈ utf8 (septetEsc sept lang), ¬ Lead b := by
  have hall : ∀ turkish : Bool, ∀ sept < 128,
      (utf8 (septetChar sept turkish.toNat)).all (¬ Lead ·) ∧
        (utf8 (septetEsc sept turkish.toNat)).all (¬ Lead ·) := by
    decide +kernel
  simp only [all_eq_true, decide_eq_true_eq] at hall
  by_cases h : lang = 1
  · exact h ▸ hall true sept hs
  · rw [septetChar, septetEsc, if_neg h, if_neg h]
    exact hall false sept hs

theorem not_lead_gsm7Step {lang langx sept : ℕ} (hs : sept < 128) {st : Text × Bool}
    (h : ∀ b ∈ st.1, ¬ Lead b) : ∀ b ∈ (gsm7Step lang langx st sept).1, ¬ Lead b := by
  rw [gsm7Step]
  split_ifs
  · exact h
  · exact fun b hb => (mem_append.1 hb).elim (h b) ((not_lead_septet langx hs).2 b)
  · exact fun b hb => (mem_append.1 hb).elim (h b) ((not_lead_septet lang hs).1 b)

/-- No such byte comes out of septets. -/
theorem not_lead_gsm7Decode (h : Text) (off n skip lang langx : ℕ) :
    ∀ b ∈ gsm7Decode h off n skip lang langx, ¬ Lead b := by
  refine foldlRecOn (motive := fun st : Text × Bool => ∀ b ∈ st.1, ¬ Lead b) _ (gsm7Step lang langx)
    nofun fun st hst i hi => ?_
  obtain ⟨_, -, rfl⟩ := mem_map.1 hi
  exact not_lead_gsm7Step (Nat.lt_of_le_of_lt Nat.and_le_right (by decide)) hst

namespace Deliver

variable (m : Deliver)

/-- Behind an empty header the units begin an octet too early: the first one is below 256. -/
theorem text_of_empty_header (h : m.header = some []) (hc : Telling c) {rest : List Char}
    (ht : m.text = c :: rest) : ∃ b ∈ (escField
      (ucs2Decode m.pdu (m.front.length + m.skipped) (m.userData.length - m.skipped))).head?,
        ¬ Lead b := by
  obtain ⟨u, us, hu, hlt, hcr⟩ := hc.unit
  have hdata : m.userData = 0 :: UInt8.ofNat (u / 256) :: UInt8.ofNat (u % 256) ::
      ((us.flatMap unitOctets) ++ textOctets rest) := by
    rw [userData, h, ht, textOctets, textOctets, flatMap_cons, hu, flatMap_append, flatMap_cons]
    rfl
  have hoctets := m.octets_eq
  rw [hdata] at hoctets
  have hzero : byteat m.pdu m.front.length = 0 := byteat_eq (b := 0) hoctets rfl
  have hhigh : byteat m.pdu (m.front.length + 1) = u / 256 := by
    rw [← UInt8.toNat_ofNat_of_lt' (show u / 256 < 256 by omega)]
    exact byteat_eq (l := m.front ++ [0]) (by rw [hoctets, append_assoc]; rfl) (by simp)
  have hlen : m.userData.length = (m.userData.length - 1) + 1 := by rw [hdata]; rfl
  have hsmall : ∀ v < 256, v ≠ 13 → (escField (utf8 v)).head?.any (¬ Lead ·) := by decide +kernel
  obtain ⟨b, hb, hlead⟩ := (Option.any_eq_true ..).1 (hsmall (u / 256) (by omega) hcr)
  refine ⟨b, ?_, of_decide_eq_true hlead⟩
  rw [m.skipped_eq h, flatMap_nil, length_nil, if_neg (by decide), Nat.add_zero, Nat.sub_zero,
    ucs2Decode, hlen, show (m.userData.length - 1 + 1 + 1) / 2 =
      (m.userData.length - 1) / 2 + 1 by omega,
    range_succ_eq_map, flatMap_cons, escField_append, Nat.mul_zero, Nat.add_zero, hzero, hhigh,
    Nat.zero_mul, Nat.zero_add, head?_append, hb]
  rfl

/-- A text that begins with a telling character does not come out where it is not found. -/
theorem not_printed (h : ¬ m.Readable) (hc : Telling c) {rest : List Char} (ht : m.text = c :: rest)
    {idx : Text} {r : Record} (hr : decodePdu idx m.pdu = some r) :
    r.text ≠ (escField m.text).flatMap Unicode.utf8 := by
  intro heq
  obtain ⟨r', hr', hunits, hsepts⟩ := m.decodePdu_text idx
  cases hr.symm.trans hr'
  obtain ⟨b, hb, hlead⟩ := hc.head_printed rest
  rw [← ht, ← heq] at hb
  by_cases hdcs : m.dcs.toNat &&& 12 = 8
  · have hempty : m.header = some [] := not_not.1 fun hh => h ⟨hdcs, hh⟩
    rw [hunits hdcs] at hb
    obtain ⟨b', hb', hnot⟩ := m.text_of_empty_header hempty hc ht
    cases (Option.mem_def.1 hb).symm.trans hb'
    exact hnot hlead
  · have hwaiting : ∀ v < 256, v &&& 0xF4 = 0xE0 → v &&& 12 ≠ 8 → v &&& 12 = 0 := by decide +kernel
    have hzero := hwaiting _ m.dcs.toNat_lt (m.ucs2.resolve_left hdcs) hdcs
    obtain ⟨off, n, skip, lang, langx, htext⟩ := hsepts hzero
    rw [htext] at hb
    exact not_lead_escField (not_lead_gsm7Decode _ off n skip lang langx)
      (mem_of_mem_head? hb) hlead

end Deliver

/-- **Received Unicode texts**: the last field that is printed for a message is the UTF-8 encoding
of its text, with blanks for tabs and line feeds and without carriage returns, exactly if no
character of the text is beyond U+FFFF and the decoder finds its units. This holds of every text
in a message where it finds them, and in any message of the texts that begin with a telling
character; others can come out by chance (an empty one does). -/
theorem received_text_iff (m : Deliver) (idx : Text)
    (hm : m.Readable ∨ ∃ c ∈ m.text.head?, Telling c) :
    (∃ line, decode idx m.pdu = some line ∧
      (line.splitOn '\t')[6]? = some ((escField m.text).flatMap Unicode.utf8)) ↔
      m.Readable ∧ ∀ c ∈ m.text, c.toNat ≤ 0xFFFF := by
  obtain ⟨r, hr, hunits, -⟩ := m.decodePdu_text idx
  have hfield : (r.line.splitOn '\t')[6]? = some r.text := by
    rw [Record.splitOn_line (decodePdu_plain hr)]
    rfl
  have hprinted : (∃ line, decode idx m.pdu = some line ∧
      (line.splitOn '\t')[6]? = some ((escField m.text).flatMap Unicode.utf8)) ↔
      r.text = (escField m.text).flatMap Unicode.utf8 := by
    simp [decode, hr, hfield]
  rw [hprinted]
  by_cases h : m.Readable
  · rw [hunits h.1, m.text_of_readable h, printed_iff, and_iff_right h]
  · obtain ⟨c, hc, htell⟩ := hm.resolve_left h
    obtain ⟨rest, ht⟩ := head?_eq_some_iff.1 hc
    exact iff_of_false (m.not_printed h htell ht hr) fun hand => h hand.1

/-- A message from a number that begins with 49, of a scheme and with or without a header. -/
def fromGermany (dcs : UInt8) (header : Option (List Element)) (text : List Char)
    (ucs2 : Ucs2 dcs) (fits : (headerOctets header ++ textOctets text).length ≤ 140)
    (nonzero : ∀ c ∈ text, c.toNat ≠ 0) : Deliver where
  smsc := []
  first := if header.isSome then 0x44 else 0x04
  addressLength := 2
  toa := 0x91
  address := [0x94]
  pid := 0
  dcs := dcs
  scts := [0x62, 0x01, 0x31, 0x90, 0x14, 0x70, 0x80]
  header := header
  text := text
  smsc_length := by decide
  deliver := by cases header <;> simp
  udhi := by cases header <;> simp
  address_length := by decide
  ucs2 := ucs2
  scts_length := rfl
  fits := fits
  nonzero := nonzero

/-- A letter comes out, behind a header with one element. -/
theorem received_text_letter :
    let m := fromGermany 8 (some [⟨0, [7, 1, 1]⟩]) [Char.ofNat 0x416] (.inl (by decide)) (by decide)
      (forall_mem_singleton.2 (by decide))
    ∃ line, decode ['3'] m.pdu = some line ∧
      (line.splitOn '\t')[6]? = some ((escField m.text).flatMap Unicode.utf8) := by
  intro m
  have hread : m.Readable := ⟨by decide, by simp [m, fromGermany]⟩
  exact (received_text_iff m ['3'] (.inl hread)).2 ⟨hread, forall_mem_singleton.2 (by decide)⟩

/-- U+1F600 comes out as the three bytes of U+D83D and the three of U+DE00, not as four bytes; and
`A` comes out as two septets of a message-waiting scheme, and shifted behind an empty header. -/
theorem emoji_received :
    let m := fromGermany 8 none [Char.ofNat 0x1F600] (.inl (by decide)) (by decide)
      (forall_mem_singleton.2 (by decide))
    let waiting := fromGermany 0xE0 none ['A'] (.inr (by decide)) (by decide)
      (forall_mem_singleton.2 (by decide))
    let empty := fromGermany 8 (some []) ['A'] (.inl (by decide)) (by decide)
      (forall_mem_singleton.2 (by decide))
    (decode ['3'] m.pdu).map (fun line => (line.splitOn '\t')[6]?) =
        some (some ([0xED, 0xA0, 0xBD, 0xED, 0xB8, 0x80].map Char.ofNat)) ∧
      [0xED, 0xA0, 0xBD, 0xED, 0xB8, 0x80].map Char.ofNat ≠
        (escField m.text).flatMap Unicode.utf8 ∧
      (decode ['3'] waiting.pdu).map (fun line => (line.splitOn '\t')[6]?) =
        some (some ['@', '$']) ∧
      (decode ['3'] empty.pdu).map (fun line => (line.splitOn '\t')[6]?) ≠ some (some ['A']) := by
  decide +kernel

end Mu300.Sms
