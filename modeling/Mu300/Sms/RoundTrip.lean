import Mu300.Sms.OneSms

/-!
# What the encoder makes can be read back

* `pack_read` — packed septets are read as the text that they were packed from.
* `well_formed_iff` — the PDU is well formed exactly if the text has no character above U+FFFF.
-/

namespace Mu300.Sms

open Shell Hex List Char

/-! ## The default alphabet -/

/-- What is read behind a text does not depend on it. -/
theorem foldl_gsm7Step (lang langx : ℕ) (ss : List ℕ) (t : Text) (esc : Bool) :
    ss.foldl (gsm7Step lang langx) (t, esc) =
      (ss.foldl (gsm7Step lang langx) ([], esc)).map (t ++ ·) id := by
  induction ss generalizing t esc with
  | nil => simp
  | cons s ss ih =>
    have hstep : ∀ t, gsm7Step lang langx (t, esc) s =
        (gsm7Step lang langx ([], esc) s).map (t ++ ·) id := by
      simp only [gsm7Step]
      split_ifs <;> simp
    rw [foldl_cons, foldl_cons, hstep t]
    rcases gsm7Step lang langx ([], esc) s with ⟨u, e⟩
    rw [Prod.map_apply, ih, ih u]
    simp [Prod.map]

/-- The code points that have septets. -/
def alphabet : List ℕ := gsm ++ ext.map Prod.snd

theorem gsm7Encodable_iff (cp : List ℕ) : gsm7Encodable cp ↔ ∀ c ∈ cp, c ∈ alphabet := by
  simp [gsm7Encodable, alphabet, rgsm, resc]

theorem alphabet_read :
    ∀ c ∈ alphabet, c ≠ 27 → (septetsOf c).foldl (gsm7Step 0 0) ([], false) = (utf8 c, false) ∧
      (ofNat c).toNat = c ∧ c ≤ 0xFFFF ∧
      (septetsOf c).length = 1 + if c ∈ ext.map Prod.snd then 1 else 0 := by
  decide +kernel

variable {cp : List ℕ} {text : List Char}

theorem foldl_septetsOf (h : ∀ c ∈ cp, c ∈ alphabet ∧ c ≠ 27) :
    (cp.flatMap septetsOf).foldl (gsm7Step 0 0) ([], false) = (cp.flatMap utf8, false) := by
  induction cp with
  | nil => rfl
  | cons c cp ih =>
    obtain ⟨hc, hne⟩ := h c mem_cons_self
    rw [flatMap_cons, foldl_append, (alphabet_read c hc hne).1, foldl_gsm7Step,
      ih fun d hd => h d (.tail _ hd)]
    rfl

theorem gsm7Decode_gsm7Pack (h : ∀ c ∈ cp, c ∈ alphabet ∧ c ≠ 27) :
    gsm7Decode (gsm7Pack cp) 0 (cp.flatMap septetsOf).length 0 0 0 = cp.flatMap utf8 := by
  obtain ⟨os, hos, hlen, hval⟩ := gsm7Pack_octets cp
  have hread := map_septetAt [] (k := 0) (v := 0) (by simpa using hval) (by decide)
    (fun _ => lt_of_mem_septets) (by omega)
  rw [Nat.zero_add] at hread
  rw [gsm7Decode, hos, ← nil_append os]
  simp only [length_nil] at hread
  rw [hread, foldl_septetsOf h]

theorem flatMap_utf8_ofNat (h : ∀ c ∈ cp, c ∈ alphabet ∧ c ≠ 27) :
    cp.flatMap utf8 = (cp.map ofNat).flatMap Unicode.utf8 := by
  rw [flatMap_map]
  refine flatMap_congr fun c hc => ?_
  obtain ⟨-, hnat, hle, -⟩ := alphabet_read c (h c hc).1 (h c hc).2
  rw [← utf8_toNat (by rwa [hnat]), hnat]

/-- **Seven-bit packing** loses nothing: of the code points that the alphabet has, all but the
escape itself, what is read from the packed octets is their text, and a septet is taken for each of
them, two for one of the extension table. -/
theorem pack_read {cp : List ℕ} (h : gsm7Encodable cp) (hesc : 27 ∉ cp) :
    let n := (cp.flatMap septetsOf).length
    gsm7Decode (gsm7Pack cp) 0 n 0 0 0 = (cp.map ofNat).flatMap Unicode.utf8 ∧
      utf8Points (gsm7Decode (gsm7Pack cp) 0 n 0 0 0) = cp ∧
      n = cp.length + cp.countP fun c => c ∈ ext.map Prod.snd := by
  have hcp : ∀ c ∈ cp, c ∈ alphabet ∧ c ≠ 27 := fun c hc =>
    ⟨(gsm7Encodable_iff cp).1 h c hc, by rintro rfl; exact hesc hc⟩
  have hread := (gsm7Decode_gsm7Pack hcp).trans (flatMap_utf8_ofNat hcp)
  refine ⟨hread, ?_, ?_⟩
  · rw [hread, utf8Points_flatMap, map_map]
    refine (map_congr_left fun c hc => ?_).trans (map_id cp)
    exact (alphabet_read c (hcp c hc).1 (hcp c hc).2).2.1
  · clear h hesc hread
    induction cp with
    | nil => rfl
    | cons c cp ih =>
      have hc := hcp c mem_cons_self
      have hlen := (alphabet_read c hc.1 hc.2).2.2.2
      have hrest := ih fun d hd => hcp d (.tail _ hd)
      simp only [flatMap_cons, length_append, length_cons, countP_cons, hlen, hrest,
        decide_eq_true_eq]
      omega

/-- Nine characters and the euro sign: eleven septets in ten octets. -/
theorem pack_read_euro :
    let cp := "Total 25 €".toList.map toNat
    utf8Points (gsm7Decode (gsm7Pack cp) 0 11 0 0 0) = cp :=
  (@pack_read ("Total 25 €".toList.map toNat) (by decide +kernel) (by decide)).2.1

/-! ## A whole PDU -/

/-- The size of a text is that of one message: 160 septets, or 70 units of UTF-16. -/
def OneSms (text : List Char) : Prop :=
  if plainText text then septets text ≤ 160 else units text ≤ 70

def hexDigit (ch : Char) : Bool := ch.isDigit || ('A' ≤ ch && ch ≤ 'F')

/-- What is printed for a text: a length and a PDU. -/
structure WellFormed (num : Text) (text : List Char) (enc : ℕ × Text) : Prop where
  digits : ∀ ch ∈ enc.2, hexDigit ch
  /-- the octet of the service centre is not counted -/
  announced : enc.2.length = 2 * (enc.1 + 1)
  udl : (enc.2.drop (schemeAt (digitsOf num) + 6)).length =
    2 * dataOctets (schemeOf (digitsOf num) enc.2) (value (lengthOf (digitsOf num) enc.2))
  data : let data := enc.2.drop (schemeAt (digitsOf num) + 6)
    if schemeOf (digitsOf num) enc.2 = ['0', '8'] then data = octets (textOctets text)
    else gsm7Decode data 0 (value (lengthOf (digitsOf num) enc.2)) 0 0 0 = text.flatMap Unicode.utf8

theorem mem_pad2 {n : ℕ} : ∀ ch ∈ pad2 n, hexDigit ch := by
  have hdigit : ∀ d, hexDigit (digit d) := by
    intro d
    have hall := all_eq_true.1 (show "0123456789ABCDEF".toList.all hexDigit by decide)
    rw [digit, getD_eq_getElem?_getD]
    rcases h : "0123456789ABCDEF".toList[d]? with _ | ch
    · rfl
    · exact hall ch (mem_of_getElem? h)
  rw [pad2]
  split
  · simp [hdigit, show hexDigit '0' by decide]
  · simp [hdigit]

theorem mem_bcdEncode {num : Text} (h : ∀ ch ∈ num, ch.isDigit) :
    ∀ ch ∈ bcdEncode num, hexDigit ch := by
  have hd : ∀ ch : Char, ch.isDigit → hexDigit ch := fun ch hch => by simp [hexDigit, hch]
  have hF : hexDigit 'F' := by decide
  fun_induction bcdEncode num <;> grind

theorem mem_userData (s : Text) : ∀ ch ∈ (userData s).dcs ++ (userData s).ud, hexDigit ch := by
  rw [userData]
  split
  · obtain ⟨os, hos, -⟩ := gsm7Pack_octets (utf8Points s)
    simpa [hos, octets] using ⟨by decide, fun ch b _ => mem_pad2 ch⟩
  · simpa [ucs2Pack] using ⟨by decide, by decide, fun ch v _ => Or.rec (mem_pad2 ch) (mem_pad2 ch)⟩

theorem mem_encode (num s : Text) : ∀ ch ∈ (encode num s).2, hexDigit ch := by
  have hall : ∀ l : Text, l.all hexDigit → ∀ ch ∈ l, hexDigit ch := fun _ => all_eq_true.1
  have htoa : ∀ ch ∈ (if num.head? = some '+' then ['9', '1'] else ['8', '1']), hexDigit ch := by
    split <;> exact hall _ rfl
  have hdata := mem_userData s
  have hnum := @mem_bcdEncode (num.filter isDigit) (by simp)
  simp only [encode, forall_mem_append] at hdata ⊢
  exact ⟨hall _ rfl, ⟨⟨⟨⟨⟨⟨⟨hall _ rfl, mem_pad2⟩, htoa⟩, hnum⟩, hall _ rfl⟩, hdata.1⟩, hall _ rfl⟩,
    mem_pad2⟩, hdata.2⟩

theorem ucs2Pack_eq (h : ∀ c ∈ text, c.toNat ≤ 0xFFFF) :
    ucs2Pack (text.map toNat) = octets (textOctets text) := by
  rw [ucs2Pack, textOctets, octets, flatMap_map, flatMap_assoc, flatMap_assoc]
  refine flatMap_congr fun c hc => ?_
  have hle := h c hc
  rw [Unicode.utf16_of_le hle]
  simp [unitOctets, Nat.mod_eq_of_lt (show c.toNat / 256 < 256 by omega)]

theorem lt_length_ucs2Pack (h : ∃ v ∈ cp, 0xFFFF < v) : 4 * cp.length < (ucs2Pack cp).length := by
  have hcount : ∀ cp : List ℕ, 4 * cp.length + cp.countP (0xFFFF < ·) ≤ (ucs2Pack cp).length := by
    intro cp
    induction cp with
    | nil => exact le_rfl
    | cons v cp ih =>
      have hlow := two_le_length_pad2 (v % 256)
      have hhigh := two_le_length_pad2 (v / 256)
      have hmore : 0xFFFF < v → 2 < (pad2 (v / 256)).length :=
          fun hv => length_pad2_of_le (by omega)
      simp only [ucs2Pack, flatMap_cons, length_append, countP_cons, length_cons] at ih ⊢
      split <;> simp_all <;> omega
  have hpos := countP_pos_iff.2 (show ∃ v ∈ cp, decide (0xFFFF < v) = true by simpa using h)
  have := hcount cp
  omega

theorem size_lt (h : OneSms text) : size text < 256 := by
  have := length_le_units text
  rw [OneSms] at h
  rw [size]
  split at h <;> simp_all <;> omega

/-- **Encoded messages** of a valid number and a text of the size of one SMS: digits, lengths and
data of the PDU are right exactly if no character of the text is beyond U+FFFF. -/
theorem well_formed_iff {num : Text} (hnum : ValidNumber num) {text : List Char}
    (htext : ∀ c ∈ text, c.toNat ≠ 0 ∧ c.toNat ≠ 27) (hsize : OneSms text) :
    WellFormed num text (encode num (text.flatMap Unicode.utf8)) ↔
      ∀ c ∈ text, c.toNat ≤ 0xFFFF := by
  have hsmall := size_lt hsize
  obtain ⟨hscheme, -, hdata⟩ := encode_fields hnum text
  have hvalue := value_lengthOf hnum hsmall
  constructor
  · intro h
    by_contra hlong
    obtain ⟨c, hc, hlt⟩ : ∃ c ∈ text, 0xFFFF < c.toNat := by simpa using hlong
    have hplain : ¬ plainText text := by
      intro hp
      have hmem := (gsm7Encodable_iff _).1 hp _ (mem_map_of_mem hc)
      have := (alphabet_read _ hmem (by omega)).2.2.1
      omega
    have hudl := h.udl
    have hmore := @lt_length_ucs2Pack (text.map toNat) (by simpa using ⟨c, hc, hlt⟩)
    simp only [hdata hsmall, hscheme, hvalue, dataOf, size, if_neg hplain, dataOctets,
      if_true] at hudl
    rw [length_map] at hmore
    omega
  · intro hle
    refine ⟨mem_encode _ _, ?_, ?_, ?_⟩
    · obtain ⟨head, hlen, hpdu⟩ := encode_eq hnum (text.flatMap Unicode.utf8)
      have hcount : ∀ s, (encode num s).1 = ((encode num s).2.length - 2) / 2 := fun s =>
        by simp [encode]
      have heven := length_dataOf hle
      rw [hcount, hpdu, userData_eq]
      simp only [length_append, hlen, length_pad2_of_lt hsmall, heven, schemeAt]
      split <;> simp <;> omega
    · rw [hdata hsmall, length_dataOf hle, hscheme, hvalue]
    · simp only [hdata hsmall, hscheme, hvalue, dataOf, size]
      by_cases hp : plainText text
      · have hcp : ∀ c ∈ text.map toNat, c ∈ alphabet ∧ c ≠ 27 := by
          simpa using fun c hc => ⟨(gsm7Encodable_iff _).1 hp _ (mem_map_of_mem hc), (htext c hc).2⟩
        simp only [if_pos hp, if_neg (show ¬ ['0', '0'] = ['0', '8'] by decide), septets,
          gsm7Decode_gsm7Pack hcp, flatMap_utf8_ofNat hcp]
        simp [Function.comp_def]
      · simp only [if_neg hp, if_true, ucs2Pack_eq hle]

/-- A text that needs UCS-2. -/
theorem well_formed_greeting :
    WellFormed "+4917" "Grüße €"
      (encode "+4917".toList ("Grüße €".toList.flatMap Unicode.utf8)) :=
  (well_formed_iff (by decide) (all_iff_forall_prop.1 (by decide))
    (by rw [OneSms]; decide +kernel)).2 (all_iff_forall_prop.1 (by decide))

/-- U+1F600 is five digits of data, and the PDU has half an octet too many. -/
theorem emoji_sent :
    let text := [ofNat 0x1F600]
    let enc := encode "12" (text.flatMap Unicode.utf8)
    ValidNumber "12".toList ∧ OneSms text ∧ enc = (11, "0011000281210008AA021F600".toList) ∧
      ¬ WellFormed "12" text enc := by
  refine ⟨by decide, by rw [OneSms]; decide +kernel, by decide +kernel, fun h => ?_⟩
  exact absurd h.announced (by decide +kernel)

end Mu300.Sms
