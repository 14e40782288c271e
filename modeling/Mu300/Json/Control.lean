import Mu300.Json.Flat

/-!
# Control characters in flat JSON

The reader is to refuse a control character in a string other than tab, newline and CR.
It lets through

* in a value, the byte 2 brought by `\u0002`, and a byte 0 that stands there as itself;
* in a key, the bytes 1 and 2 brought by `\u0001` and `\u0002`, which vanish before the key is
  looked at.

`refuses_control_iff` says that there is nothing else.
-/

namespace Mu300.FlatJson

open Shell List Char

variable {anykey : Bool} {seen : List Text} {t : Text} {c : Char}
  {ms : List (Json.Member Json.Value)} {s : Json.Str} {u : ℕ}

/-- Below U+0020, and neither tab nor line feed nor carriage return. -/
def control (u : ℕ) : Bool := u < 32 && u ≠ 9 && u ≠ 10 && u ≠ 13

/-- A key or a string value of the object, at any depth, stands for a text with a control
character. -/
def HasControl (d : Json.Document) : Prop :=
  ∃ p ∈ d.strings, ∃ t, Json.decode p.2 = some t ∧ ∃ c ∈ t, control c.toNat

/-- The ways to write a control character that the reader does not see. -/
def overlooked : Json.Place → Json.Item → Bool
  | .value, .raw c _ => c.toNat = 0
  | .value, .unicode d => d.toNat = 2
  | .key, .unicode d => d.toNat = 1 || d.toNat = 2
  | _, _ => false

/-! ## The other rules -/

/-- Tab, newline, CR and DEL are not to stand there as themselves, and DEL in a value not by an
escape either. -/
def allowed : Json.Place → Json.Item → Bool
  | _, .raw c _ => c.toNat ≠ 9 && c.toNat ≠ 10 && c.toNat ≠ 13 && c.toNat ≠ 127
  | .value, .unicode d => d.toNat ≠ 127
  | _, _ => true

/-- The name in a key: what it stands for, without the bytes 1 and 2. -/
def name (s : Json.Str) : Text := unmark ((Json.decode s).getD [])

/-- Neither an array nor an object. -/
def isScalar : Json.Value → Bool
  | .arr _ _ | .obj _ _ => false
  | _ => true

/-- What the reader asks of an object beside that there are no control characters. -/
structure OtherRules (anykey : Bool) (ms : List (Json.Member Json.Value)) : Prop where
  scalar : ∀ m ∈ ms, isScalar m.value
  short : ∀ m ∈ ms, ∀ n, m.value = .num n → n.1.length ≤ 64
  paired : ∀ p ∈ Json.membersStrings ms, (Json.decode p.2).isSome
  bytes : ∀ p ∈ Json.membersStrings ms, ∀ i ∈ p.2, allowed p.1 i
  names : ∀ m ∈ ms, isKey anykey (name m.key) ∧ (name m.key).length ≤ 32
  distinct : (ms.map fun m => name m.key).Nodup

/-- An object that gets through with a control character: every one of them is overlooked, and there
is no other reason to refuse it. -/
structure Slips (anykey : Bool) (d : Json.Document) : Prop where
  control : HasControl d
  unseen : ∀ p ∈ d.strings, ∀ i ∈ p.2, FlatJson.control i.unit → overlooked p.1 i
  rules : OtherRules anykey d.members

/-! ## One item -/

theorem control_iff : control u ↔ u < 32 ∧ u ≠ 9 ∧ u ≠ 10 ∧ u ≠ 13 := by
  simp only [control, Bool.and_eq_true, decide_eq_true_eq, and_assoc]

theorem ctl_eq_false_iff : ctl c = false ↔ (c.toNat = 0 ∨ 32 ≤ c.toNat) ∧ c.toNat ≠ 127 := by
  rw [ctl, Bool.or_eq_false_iff, Bool.and_eq_false_iff, decide_eq_false_iff_not,
    decide_eq_false_iff_not, decide_eq_false_iff_not]
  omega

theorem found_eq_false_iff :
    found u = false ↔ u = 0 ∨ 32 ≤ u ∧ u ≠ 127 ∨ u = 2 ∨ u = 9 ∨ u = 10 ∨ u = 13 := by
  rw [← Bool.not_eq_true]
  simp only [found, Bool.and_eq_true, Bool.or_eq_true, decide_eq_true_eq]
  omega

theorem value_item_iff (i : Json.Item) : refused i = false ∧ caught i = false ↔
      (control i.unit → overlooked .value i) ∧ allowed .value i := by
  cases i with
  | raw c h =>
    simp only [refused, caught, overlooked, allowed, Json.Item.unit, ctl_eq_false_iff, control_iff,
      Bool.and_eq_true, decide_eq_true_eq, and_true]
    omega
  | short e => cases e <;> decide
  | unicode d =>
    simp only [refused, caught, overlooked, allowed, Json.Item.unit,
      found_eq_false_iff, control_iff, decide_eq_false_iff_not, decide_eq_true_eq]
    omega

/-- What it lets through in a key, if no control character but the bytes 1 and 2 is in it. -/
theorem key_item_iff (i : Json.Item) (hi : control i.unit → i.unit = 1 ∨ i.unit = 2) :
    refused i = false ↔ (control i.unit → overlooked .key i) ∧ allowed .key i := by
  cases i with
  | raw c h =>
    simp only [refused, overlooked, allowed, Json.Item.unit, ctl_eq_false_iff, control_iff,
      Bool.and_eq_true, decide_eq_true_eq, Bool.false_eq_true, imp_false] at hi ⊢
    omega
  | short e =>
    -- the escapes of one letter bring neither of the two
    have hnot : ¬ control (Json.Item.short e).unit := by
      intro hc
      rcases hi hc with hu | hu <;> cases e <;> cases hu
    exact ⟨fun _ => ⟨fun hc => absurd hc hnot, rfl⟩, fun _ => rfl⟩
  | unicode d =>
    simp only [refused, overlooked, allowed, Json.Item.unit, control_iff, decide_eq_false_iff_not,
      Bool.or_eq_true, decide_eq_true_eq, and_true] at hi ⊢
    omega

/-! ## Keys -/

theorem le_of_keyTail (h : keyTail anykey c ∨ keyHead anykey c) : 48 ≤ c.toNat := by
  have hle : ∀ {a : Char}, a ≤ c → a.toNat ≤ c.toNat := fun h => h
  have hdigit : '0'.toNat = 48 := rfl
  have hupper : 'A'.toNat = 65 := rfl
  have hlower : 'a'.toNat = 97 := rfl
  have hunder : '_'.toNat = 95 := rfl
  simp only [keyTail, keyHead, Bool.or_eq_true, Bool.and_eq_true, decide_eq_true_eq] at h
  rcases h with (((h | h) | rfl) | h) | h | ⟨-, h | rfl⟩
  · have := hle h.1
    omega
  · have := hle h.1
    omega
  · omega
  · have := hle h.1.2
    omega
  · have := hle h.1
    omega
  · have := hle h.1
    omega
  · omega

theorem le_of_isKey {k : Text} (hk : isKey anykey k) (hc : c ∈ k) : 48 ≤ c.toNat := by
  cases k with
  | nil => cases hc
  | cons a k =>
    rw [isKey, Bool.and_eq_true, all_eq_true] at hk
    rcases mem_cons.1 hc with rfl | hc
    · exact le_of_keyTail (.inr hk.1)
    · exact le_of_keyTail (.inl (hk.2 c hc))

theorem control_key (hd : Json.decode s = some t) (hk : isKey anykey (unmark t))
    {i : Json.Item} (hi : i ∈ s) (hc : control i.unit) : i.unit = 1 ∨ i.unit = 2 := by
  rw [control_iff] at hc
  have hnat : (ofNat i.unit).toNat = i.unit := Json.toNat_ofNat (.inl (by omega))
  have hmem : ofNat i.unit ∈ t :=
    (Json.mem_decode_iff s t hd (by rw [hnat]; omega)).2 ⟨i, hi, hnat.symm⟩
  by_contra hne
  rw [not_or] at hne
  have hkept : ofNat i.unit ∈ unmark t := by
    refine mem_filter.2 ⟨hmem, ?_⟩
    rw [Bool.and_eq_true, decide_eq_true_eq, decide_eq_true_eq]
    constructor
    · intro he
      exact hne.1 (by rw [← hnat, he]; rfl)
    · intro he
      exact hne.2 (by rw [← hnat, he]; rfl)
  have := le_of_isKey hk hkept
  omega

/-! ## Strings and members -/

/-- What is asked of a string beside that it is a name: the pairs are whole, and every item is one
that the reader lets through. -/
def StringOk (p : Json.Place × Json.Str) : Prop :=
  (Json.decode p.2).isSome ∧ ∀ i ∈ p.2, (control i.unit → overlooked p.1 i) ∧ allowed p.1 i

theorem name_of_withMarks {v : Text} (h : withMarks s = some v) : unmark v = name s := by
  obtain ⟨t, ht, hv⟩ := unmark_withMarks s v h
  rw [name, ht, hv]
  rfl

theorem key_ok_iff (s : Json.Str) (hk : isKey anykey (name s)) :
    (withMarks s).isSome ↔ StringOk (.key, s) := by
  rw [withMarks_isSome, StringOk]
  refine and_congr_right fun hsome => ?_
  obtain ⟨t, ht⟩ := Option.isSome_iff_exists.1 hsome
  rw [name, ht] at hk
  refine forall_congr' fun i => forall_congr' fun hi => ?_
  exact key_item_iff i (control_key ht hk hi)

theorem scalarOf_str (s : Json.Str) : (scalarOf (.str s)).isSome ↔ StringOk (.value, s) := by
  have hscalar : (scalarOf (.str s)).isSome ↔ (withMarks s).isSome ∧ ∀ i ∈ s, caught i = false := by
    rw [scalarOf]
    cases withMarks s with
    | none => simp
    | some v =>
      have hall : (∀ i ∈ s, caught i = false) ↔ s.any caught = false := by simp
      rw [hall]
      cases s.any caught <;> simp
  rw [hscalar, withMarks_isSome, StringOk, and_assoc]
  refine and_congr_right fun _ => ?_
  rw [← forall₂_and]
  exact forall_congr' fun i => forall_congr' fun _ => value_item_iff i

theorem scalarOf_isSome (y : Json.Value) : (scalarOf y).isSome ↔
      isScalar y ∧ (∀ n, y = .num n → n.1.length ≤ 64) ∧ ∀ p ∈ y.strings, StringOk p := by
  cases y with
  | str s =>
    rw [scalarOf_str, Json.Value.strings]
    simp [isScalar]
  | num n =>
    rw [scalarOf, Json.Value.strings]
    by_cases hlen : n.1.length ≤ 64
    · simp [isScalar, hlen]
    · simp [isScalar, hlen]
  | word w =>
    rw [scalarOf, Json.Value.strings]
    simp [isScalar]
  | arr w es | obj w ms =>
    rw [scalarOf]
    simp [isScalar]

structure MemberOk (anykey : Bool) (m : Json.Member Json.Value) : Prop where
  scalar : isScalar m.value
  short : ∀ n, m.value = .num n → n.1.length ≤ 64
  strings : ∀ p ∈ (.key, m.key) :: m.value.strings, StringOk p
  named : isKey anykey (name m.key) ∧ (name m.key).length ≤ 32

theorem exists_of_entry {m : Json.Member Json.Value} {x : Text × Text}
    (h : entry anykey seen m = some x) :
    ∃ y, scalarOf m.value = some y ∧ x = (name m.key, line (name m.key) y) := by
  rw [entry] at h
  split at h
  · cases h
  · next v hv =>
    dsimp only at h
    split_ifs at h
    obtain ⟨y, hy, rfl⟩ := Option.map_eq_some_iff.1 h
    exact ⟨y, hy, by rw [name_of_withMarks hv]⟩

theorem entry_isSome (anykey : Bool) (seen : List Text) (m : Json.Member Json.Value) :
    (entry anykey seen m).isSome ↔ MemberOk anykey m ∧ name m.key ∉ seen := by
  have hread : (entry anykey seen m).isSome ↔ (withMarks m.key).isSome ∧ (name m.key).length ≤ 32 ∧
      name m.key ∉ seen ∧ isKey anykey (name m.key) ∧ (scalarOf m.value).isSome := by
    rw [entry]
    cases hv : withMarks m.key with
    | none => simp
    | some v =>
      dsimp only
      rw [name_of_withMarks hv]
      split_ifs with hlong hkey
      · simp only [Option.isSome_none, Bool.false_eq_true, false_iff]
        rintro ⟨-, hlen, hnew, -⟩
        rcases hlong with h | h
        · omega
        · exact hnew h
      · rw [not_or, Nat.not_lt] at hlong
        simp [hlong, hkey]
      · simp [hkey]
  rw [hread, scalarOf_isSome]
  constructor
  · rintro ⟨hsome, hlen, hnew, hkey, hscalar, hshort, hstrings⟩
    refine ⟨⟨hscalar, hshort, ?_, hkey, hlen⟩, hnew⟩
    exact forall_mem_cons.2 ⟨(key_ok_iff m.key hkey).1 hsome, hstrings⟩
  · rintro ⟨h, hnew⟩
    obtain ⟨hok, hstrings⟩ := forall_mem_cons.1 h.strings
    exact ⟨(key_ok_iff m.key h.named.1).2 hok, h.named.2, hnew, h.named.1, h.scalar,
      h.short, hstrings⟩

/-- Members are read exactly when each of them keeps the rules and no name comes twice. -/
theorem entries_isSome (anykey : Bool) (seen : List Text) (ms : List (Json.Member Json.Value)) :
    (entries anykey seen ms).isSome ↔ (∀ m ∈ ms, MemberOk anykey m) ∧
    (ms.map fun m => name m.key).Nodup ∧
        ∀ m ∈ ms, name m.key ∉ seen := by
  induction ms generalizing seen with
  | nil => simp [entries]
  | cons m ms ih =>
    have hm := entry_isSome anykey seen m
    rw [entries]
    cases he : entry anykey seen m with
    | none =>
      rw [he] at hm
      simp only [Option.isSome_none, Bool.false_eq_true, false_iff, not_and] at hm ⊢
      intro hall _ hnew
      exact hm (hall m mem_cons_self) (hnew m mem_cons_self)
    | some x =>
      rw [he] at hm
      obtain ⟨hok, hnew⟩ := hm.1 rfl
      obtain ⟨y, -, rfl⟩ := exists_of_entry he
      dsimp only
      rw [Option.isSome_map, ih, map_cons, nodup_cons]
      simp only [mem_map, not_exists, not_and]
      constructor
      · rintro ⟨hall, hnodup, hrest⟩
        refine ⟨forall_mem_cons.2 ⟨hok, hall⟩, ⟨fun m' hm' hsame => ?_, hnodup⟩,
          forall_mem_cons.2 ⟨hnew, fun m' hm' => ?_⟩⟩
        · exact hrest m' hm' (hsame ▸ mem_cons_self)
        · exact fun hin => hrest m' hm' (.tail _ hin)
      · rintro ⟨hall, ⟨hother, hnodup⟩, hrest⟩
        refine ⟨(forall_mem_cons.1 hall).2, hnodup, fun m' hm' hin => ?_⟩
        rcases mem_cons.1 hin with hsame | hin
        · exact hother m' hm' hsame
        · exact hrest m' (.tail _ hm') hin

/-! ## Whole objects -/

theorem mem_membersStrings {p : Json.Place × Json.Str} :
    p ∈ Json.membersStrings ms ↔ ∃ m ∈ ms, p ∈ (.key, m.key) :: m.value.strings := by
  induction ms with
  | nil => simp [Json.membersStrings]
  | cons m ms ih => simp [Json.membersStrings, ih, or_assoc]

theorem members_ok_iff : ((∀ m ∈ ms, MemberOk anykey m) ∧ (ms.map fun m => name m.key).Nodup) ↔
      (∀ p ∈ Json.membersStrings ms, ∀ i ∈ p.2, control i.unit → overlooked p.1 i) ∧
        OtherRules anykey ms := by
  have hstrings : (∀ p ∈ Json.membersStrings ms, StringOk p) ↔
      ∀ m ∈ ms, ∀ p ∈ (.key, m.key) :: m.value.strings, StringOk p := by
    constructor
    · exact fun h m hm p hp => h p (mem_membersStrings.2 ⟨m, hm, hp⟩)
    · intro h p hp
      obtain ⟨m, hm, hp⟩ := mem_membersStrings.1 hp
      exact h m hm p hp
  constructor
  · rintro ⟨hall, hnodup⟩
    have hok := hstrings.2 fun m hm => (hall m hm).strings
    exact ⟨fun p hp i hi => ((hok p hp).2 i hi).1,
      { scalar := fun m hm => (hall m hm).scalar
        short := fun m hm => (hall m hm).short
        paired := fun p hp => (hok p hp).1
        bytes := fun p hp i hi => ((hok p hp).2 i hi).2
        names := fun m hm => (hall m hm).named
        distinct := hnodup }⟩
  · rintro ⟨hunseen, hrules⟩
    have hok := hstrings.1 fun p hp =>
      ⟨hrules.paired p hp, fun i hi => ⟨hunseen p hp i hi, hrules.bytes p hp i hi⟩⟩
    exact ⟨fun m hm => ⟨hrules.scalar m hm, hrules.short m hm, hok m hm, hrules.names m hm⟩,
      hrules.distinct⟩

theorem exists_slurp_text (d : Json.Document) :
    ∃ d' : Json.Document, slurp d.text = d'.text ∧ d'.members = d.members := by
  obtain ⟨before, inside, members, ⟨after, hafter⟩⟩ := d
  rw [slurp]
  split
  · next hlast =>
    rcases eq_nil_or_concat' after with rfl | ⟨b, c, rfl⟩
    · rw [Json.Document.text, Json.Value.text, append_nil, ← append_assoc, getLast?_concat] at hlast
      exact absurd (Option.some.inj hlast) (by decide)
    · refine ⟨⟨before, inside, members, b, fun c hc => hafter c (mem_append_left _ hc)⟩, ?_, rfl⟩
      rw [Json.Document.text, ← append_assoc, dropLast_concat]
      rfl
  · exact ⟨_, rfl, rfl⟩

/-- **What the reader takes**: an object in which every control character is overlooked and that
keeps the other rules. -/
theorem run_text_iff (anykey : Bool) (d : Json.Document) : run anykey d.text ≠ ⟨[], 1⟩ ↔
      (∀ p ∈ d.strings, ∀ i ∈ p.2, control i.unit → overlooked p.1 i) ∧
      OtherRules anykey d.members := by
  obtain ⟨d', htext, hmembers⟩ := exists_slurp_text d
  rw [Json.Document.strings, ← members_ok_iff, run, htext, flat_text, hmembers]
  have hentries : (entries anykey [] d.members).isSome ↔
      (∀ m ∈ d.members, MemberOk anykey m) ∧ (d.members.map fun m => name m.key).Nodup := by
    rw [entries_isSome, ← and_assoc]
    exact and_iff_left fun m _ => not_mem_nil
  rw [← hentries]
  cases entries anykey [] d.members with
  | none => simp
  | some xs => simp

/-- **Control characters are refused** in every object but those in which each of them is written in
a way that the reader overlooks. -/
theorem refuses_control_iff (anykey : Bool) (d : Json.Document) :
    (HasControl d → run anykey d.text = ⟨[], 1⟩) ↔ ¬ Slips anykey d := by
  constructor
  · rintro h ⟨hcontrol, hunseen, hrules⟩
    exact (run_text_iff anykey d).2 ⟨hunseen, hrules⟩ (h hcontrol)
  · intro h hcontrol
    by_contra hrun
    obtain ⟨hunseen, hrules⟩ := (run_text_iff anykey d).1 hrun
    exact h ⟨hcontrol, hunseen, hrules⟩

/-! ## What gets through -/

namespace Sample

def noBlank : Json.Blank := ⟨[], forall_mem_nil _⟩

/-- An object with one member, a string. -/
def object (key value : Json.Str) : Json.Document :=
  ⟨noBlank, noBlank, [⟨noBlank, key, noBlank, noBlank, .str value, noBlank⟩], noBlank⟩

def letterA : Json.Item := .raw 'a' (by decide)

def nul : Json.Item := .raw (ofNat 0) (by decide)

/-- `\u000n` -/
def escaped (n : Char) (h : (Json.hexDigit n).isSome) : Json.Item :=
  .unicode ⟨⟨'0', rfl⟩, ⟨'0', rfl⟩, ⟨'0', rfl⟩, ⟨n, h⟩⟩

/-- `{"a":"a\u0002"}` -/
def escapedTwo : Json.Document := object [letterA] [letterA, escaped '2' rfl]

/-- `{"a":"a` and a byte 0 and `"}` -/
def rawNul : Json.Document := object [letterA] [letterA, nul]

/-- `{"a\u0001":"a"}` -/
def escapedKey : Json.Document := object [letterA, escaped '1' rfl] [letterA]

/-- Bytes 1 and 2, and a raw zero byte, get through. -/
theorem control_gets_through :
    (HasControl escapedTwo ∧ run false escapedTwo.text = ⟨"a\ts\ta\n", 0⟩) ∧
      (HasControl rawNul ∧ run false rawNul.text = ⟨"a\ts\ta\x00\n", 0⟩) ∧
        HasControl escapedKey ∧ run false escapedKey.text = ⟨"a\ts\ta\n", 0⟩ := by
  refine ⟨⟨?_, by decide +kernel⟩, ⟨?_, by decide +kernel⟩, ?_, by decide +kernel⟩
  · exact ⟨(.value, [letterA, escaped '2' rfl]), .tail _ (.head _), ['a', ofNat 2], rfl, ofNat 2,
      .tail _ (.head _), rfl⟩
  · exact ⟨(.value, [letterA, nul]), .tail _ (.head _), ['a', ofNat 0], rfl, ofNat 0,
      .tail _ (.head _), rfl⟩
  · exact ⟨(.key, [letterA, escaped '1' rfl]), .head _, ['a', ofNat 1], rfl, ofNat 1,
      .tail _ (.head _), rfl⟩

end Sample

end Mu300.FlatJson
