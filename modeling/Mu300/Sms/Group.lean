import Mu300.Sms.Received

/-!
# The parts of one long message

The mode `group` of `sms-pdu.awk`: every decoded record gets the key of the message it belongs to.

A group is found by its base and its place among those of that base; the text of its identifier in
awk's tables does not matter, as no sender has the character that joins it (`SUBSEP`).
-/

namespace Mu300.Sms

open Shell List Option

/-! ## Timestamps -/

/-- The form of a timestamp, `D` for a digit. -/
def tsForm : Text := "20DD-DD-DD DD:DD:DD"

def twoDigits (s : Text) (i : ℕ) : ℕ := Nat.ofDigitChars 10 ((s.drop i).take 2) 0

def daysBefore : List ℕ := [0, 31, 59, 90, 120, 151, 181, 212, 243, 273, 304, 334]

/-- `ts_secs`: -1 for what is no timestamp. -/
def tsSecs (s : Text) : ℤ :=
  if s.length = tsForm.length ∧
    (s.zip tsForm).all (fun p => if p.2 = 'D' then p.1.isDigit else p.1 = p.2) then
    let y := twoDigits s 2
    let m := twoDigits s 5
    if m < 1 ∨ 12 < m then -1
    else
      let days : ℤ := y * 365 + (y + 3) / 4 + daysBefore.getD (m - 1) 0 + twoDigits s 8 - 1
      let days := if 2 < m ∧ y % 4 = 0 then days + 1 else days
      days * 86400 + twoDigits s 11 * 3600 + twoDigits s 14 * 60 + twoDigits s 17
  else -1

/-- `ts_near`, with a `GROUP_WINDOW` of 600 seconds. -/
def tsNear (a b : Text) : Bool :=
  tsSecs a < 0 || tsSecs b < 0 || (tsSecs a - tsSecs b).natAbs ≤ 600

/-! ## Groups -/

/-- How the keys of long messages begin. -/
def multi : Text := ['m', 'u', 'l', 't', 'i', ':']

def single : Text := ['s', 'i', 'n', 'g', 'l', 'e', ':']

/-- `multi:SENDER:REF:TOTAL`; nothing for a message of its own. -/
def Record.base (r : Record) : Option Text :=
  r.ref.map fun ref =>
    multi ++ (r.sender ++ ':' :: (decimal ref ++ ':' :: decimal r.total))

/-- A group: its base, the time of its first part, the earliest time, and the text under each part
number. -/
structure Group where
  base : Text
  first : Text
  min : Text
  txt : List (ℕ × Text)

/-- A part is of the time of the group, and its number has no other text there. How awk compares two
texts that look like numbers is left open. -/
def Group.accepts (same : Text → Text → Bool) (g : Group) (r : Record) : Bool :=
  tsNear r.ts g.first &&
    match g.txt.lookup r.part with
    | some t => same t r.text
    | none => true

def Group.add (g : Group) (r : Record) : Group :=
  { g with
    txt := (r.part, r.text) :: g.txt
    min := if 0 ≤ tsSecs r.ts ∧ (tsSecs g.min < 0 ∨ before r.ts g.min) then r.ts else g.min }

/-- The groups with a part more, and which of them it went to. -/
def place (same : Text → Text → Bool) (b : Text) (r : Record) : List Group → List Group × ℕ
  | [] => ([Group.add ⟨b, r.ts, r.ts, []⟩ r], 0)
  | g :: gs =>
    if g.base = b ∧ g.accepts same r then (g.add r :: gs, 0)
    else
      let rest := place same b r gs
      (g :: rest.1, rest.2 + 1)

/-- The groups, and the records with the place of theirs. -/
structure Grouping where
  groups : List Group
  placed : List (Record × Option ℕ)

def Grouping.add (same : Text → Text → Bool) (G : Grouping) (r : Record) : Grouping :=
  match r.base with
  | none => ⟨G.groups, G.placed ++ [(r, none)]⟩
  | some b =>
    let p := place same b r G.groups
    ⟨p.1, G.placed ++ [(r, some p.2)]⟩

def grouping (same : Text → Text → Bool) (rs : List Record) : Grouping :=
  rs.foldl (Grouping.add same) ⟨[], []⟩

/-! ## Keys -/

/-- `key_base`: without its time. -/
def keyBase (k : Text) : Text :=
  if '@' ∈ k then (k.rdropWhile (· ≠ '@')).dropLast else k

/-- `key_stamp`: its time. -/
def keyStamp (k : Text) : Text :=
  if '@' ∈ k then
    let stamp := k.rtakeWhile (· ≠ '@')
    let front := stamp.rdropWhile Char.isDigit
    if front.getLast? = some '#' ∧ front.length < stamp.length then front.dropLast else stamp
  else []

/-- A name that is not taken: as it is, or with `#2`, `#3` and so on. -/
def freshName (taken : List Text) (name : Text) : Text :=
  ((name :: (range taken.length).map fun c => name ++ '#' :: decimal (c + 2)).find?
    (· ∉ taken)).getD name

/-- The name of a group: that of a message that waits, or a new one. -/
def nameOf (known taken : List Text) (g : Group) : Text :=
  (known.find? fun k =>
    k ∉ taken ∧ keyBase k = g.base ∧ (keyStamp k = [] ∨ tsNear (keyStamp k) g.min)).getD
      (freshName taken (g.base ++ '@' :: g.min))

/-- The names of the groups, in their order. -/
def names (known : List Text) : List Text → List Group → List Text
  | _, [] => []
  | taken, g :: gs => nameOf known taken g :: names known (nameOf known taken g :: taken) gs

/-- The keys of the waiting state that are of long messages. -/
def waitingKeys (partials : List Text) : List Text :=
  (partials.map fun l => l.takeWhile (· ≠ '\t')).filter fun k => multi.isPrefixOf k

/-- The key of a record: its number, or the name of its group. -/
def keyOf (ns : List Text) (i : ℕ) : Option ℕ → Text
  | none => single ++ decimal (i + 1)
  | some j => ns.getD j []

/-- **The mode `group`**: the records with their keys. -/
def keyed (same : Text → Text → Bool) (partials : List Text) (rs : List Record) :
    List (Text × Record) :=
  let G := grouping same rs
  G.placed.zipIdx.map fun p => (keyOf (names (waitingKeys partials) [] G.groups) p.2 p.1.2, p.1.1)

/-! ## Bases -/

theorem colon_not_mem_decimal (n : ℕ) : ':' ∉ decimal n := fun h =>
  absurd (mem_decimal h) (by decide)

theorem decimal_inj {m n : ℕ} (h : decimal m = decimal n) : m = n := by
  have hof := congrArg (Nat.ofDigitChars 10 · 0) h
  simp only [decimal] at hof
  rwa [Nat.ofDigitChars_toDigits (by decide) (by decide), Nat.ofDigitChars_toDigits (by decide)
    (by decide)] at hof

theorem base_inj {r r' : Record} {b : Text} (h : r.base = some b) (h' : r'.base = some b) :
    r.sender = r'.sender ∧ r.ref = r'.ref ∧ r.total = r'.total := by
  obtain ⟨ref, href, rfl⟩ := map_eq_some_iff.1 h
  obtain ⟨ref', href', heq⟩ := map_eq_some_iff.1 h'
  rw [append_cancel_left_eq] at heq
  have hassoc : ∀ s a b : Text, s ++ ':' :: (a ++ ':' :: b) = (s ++ ':' :: a) ++ ':' :: b := by
    intro s a b
    rw [append_assoc, cons_append]
  rw [hassoc, hassoc] at heq
  obtain ⟨hfront, htotal⟩ :=
    eq_of_append_cons (colon_not_mem_decimal _) (colon_not_mem_decimal _) heq
  obtain ⟨hsender, hdec⟩ :=
    eq_of_append_cons (colon_not_mem_decimal _) (colon_not_mem_decimal _) hfront
  exact ⟨hsender.symm, by rw [href, href', decimal_inj hdec], (decimal_inj htotal).symm⟩

/-! ## Groups and their records -/

variable (same : Text → Text → Bool) {known : List Text} {G : Grouping} (rs : List Record)
  (taken : List Text) (g : Group)

@[simp, grind =] theorem Group.add_base (r : Record) : (g.add r).base = g.base := rfl

@[simp, grind =] theorem Group.add_first (r : Record) : (g.add r).first = g.first := rfl

@[simp, grind =] theorem Group.add_txt (r : Record) :
    (g.add r).txt = (r.part, r.text) :: g.txt := rfl

/-- Into the first group that accepts it, or into a new one behind the others. -/
theorem place_cases (b : Text) (r : Record) (gs : List Group) :
    (∃ j g, gs[j]? = some g ∧ g.base = b ∧ g.accepts same r ∧ place same b r gs =
      (gs.set j (g.add r), j)) ∨
      place same b r gs = (gs ++ [Group.add ⟨b, r.ts, r.ts, []⟩ r], gs.length) := by
  induction gs with
  | nil => exact .inr rfl
  | cons g gs ih =>
    rw [place]
    split
    · rename_i h
      exact .inl ⟨0, g, rfl, h.1, h.2, rfl⟩
    · rcases ih with ⟨j, g', hj, hb, hacc, heq⟩ | heq
      · exact .inl ⟨j + 1, g', hj, hb, hacc, by simp [heq]⟩
      · exact .inr (by simp [heq])

/-- No group before that one accepts it. -/
theorem not_accepts_of_lt_place {b : Text} {r : Record} {gs : List Group} {i : ℕ}
    (hi : i < (place same b r gs).2) {g : Group} (hg : gs[i]? = some g) (hb : g.base = b) :
    ¬ g.accepts same r := by
  induction gs generalizing i with
  | nil => cases hi
  | cons g' gs ih =>
    rw [place] at hi
    split at hi
    · cases hi
    · next h =>
      cases i with
      | zero =>
        cases hg
        exact fun hacc => h ⟨hb, hacc⟩
      | succ i => exact ih (Nat.lt_of_succ_lt_succ hi) hg

/-- Every record that is a part is in a group of its base. -/
def Grouping.Sound (G : Grouping) : Prop :=
  ∀ p ∈ G.placed, ∀ b, p.1.base = some b →
    ∃ j, p.2 = some j ∧ (G.groups.map Group.base)[j]? = some b

/-- A record of its own is in no group. -/
def Grouping.Alone (G : Grouping) : Prop := ∀ p ∈ G.placed, p.1.base = none → p.2 = none

theorem Grouping.Sound.add {same : Text → Text → Bool} (h : G.Sound) (r : Record) :
    (G.add same r).Sound := by
  rw [Grouping.Sound] at h ⊢
  rw [Grouping.add]
  rcases hbase : r.base with _ | b'
  · grind
  · rcases place_cases same b' r G.groups with ⟨j, g, hj, hb, -, heq⟩ | heq
    · grind
    · grind

theorem Grouping.Alone.add {same : Text → Text → Bool} (h : G.Alone) (r : Record) :
    (G.add same r).Alone := by
  rw [Grouping.Alone] at h ⊢
  rw [Grouping.add]
  grind

theorem grouping_sound : (grouping same rs).Sound :=
  foldlRecOn rs (Grouping.add same) (fun _ h => nomatch h) fun _ hG r _ => hG.add r

theorem grouping_alone : (grouping same rs).Alone :=
  foldlRecOn rs (Grouping.add same) (fun _ h => nomatch h) fun _ hG r _ => hG.add r

theorem map_fst_placed : (grouping same rs).placed.map Prod.fst = rs := by
  induction rs using reverseRecOn with
  | nil => rfl
  | append_singleton rs r ih =>
    rw [grouping, foldl_append, foldl_cons, foldl_nil, ← grouping, Grouping.add]
    split <;> simp [ih]

theorem base_multi {r : Record} {b : Text} (h : r.base = some b) : multi <+: b := by
  obtain ⟨ref, -, rfl⟩ := map_eq_some_iff.1 h
  exact prefix_append _ _

/-- What holds of a new group and stays when a part is added holds of every group. -/
theorem forall_groups {same : Text → Text → Bool} {rs : List Record} {P : Group → Prop}
    (hnew : ∀ r ∈ rs, ∀ b, r.base = some b → P ⟨b, r.ts, r.ts, []⟩)
    (hadd : ∀ g, ∀ r ∈ rs, P g → P (g.add r)) : ∀ g ∈ (grouping same rs).groups, P g := by
  refine foldlRecOn (motive := fun G => ∀ g ∈ G.groups, P g) rs (Grouping.add same) ?_
    fun G hG r hr => ?_
  · simp
  rw [Grouping.add]
  rcases hbase : r.base with _ | b
  · exact hG
  rcases place_cases same b r G.groups with ⟨j, g, hj, -, -, heq⟩ | heq
  · simp only [heq]
    intro g' hg'
    rcases mem_or_eq_of_mem_set hg' with hold | rfl
    · exact hG g' hold
    · exact hadd g r hr (hG g (mem_of_getElem? hj))
  · simp only [heq, forall_mem_append, forall_mem_singleton]
    exact ⟨hG, hadd _ r hr (hnew r hr b hbase)⟩

theorem bases_multi : ∀ b ∈ (grouping same rs).groups.map Group.base, multi <+: b := by
  rw [List.forall_mem_map]
  exact forall_groups (fun r _ b hb => base_multi hb) fun g r _ hg => hg

/-! ## Names -/

theorem freshName_not_mem (name : Text) : freshName taken name ∉ taken := by
  set cands := name :: (range taken.length).map fun c => name ++ '#' :: decimal (c + 2) with hcands
  have hnodup : cands.Nodup := by
    refine nodup_cons.2 ⟨fun h => ?_, nodup_range.map_on fun a _ b _ hab => ?_⟩
    · obtain ⟨c, -, hc⟩ := mem_map.1 h
      have hlen := congrArg length hc
      simp at hlen
    · rw [append_cancel_left_eq, cons.injEq] at hab
      have := decimal_inj hab.2
      omega
  obtain ⟨n, hn, hfree⟩ : ∃ n ∈ cands, n ∉ taken := by
    by_contra hall
    push Not at hall
    have hle := (hnodup.subperm hall).length_le
    rw [hcands, length_cons, length_map, length_range] at hle
    omega
  rw [freshName, ← hcands]
  rcases hfind : cands.find? (· ∉ taken) with _ | m
  · exact absurd hfree (by simpa using find?_eq_none.1 hfind n hn)
  · have := find?_some hfind
    exact of_decide_eq_true this

theorem freshName_eq (name : Text) :
    freshName taken name = name ∨ ∃ c, freshName taken name = name ++ '#' :: decimal c := by
  rw [freshName]
  rcases hfind : find? _ _ with _ | m
  · exact .inl rfl
  · rcases mem_cons.1 (mem_of_find?_eq_some hfind) with rfl | hm
    · exact .inl rfl
    · obtain ⟨c, -, rfl⟩ := mem_map.1 hm
      exact .inr ⟨_, rfl⟩

theorem nameOf_not_mem (known taken : List Text) (g : Group) : nameOf known taken g ∉ taken := by
  rw [nameOf]
  rcases hfind : find? _ known with _ | k
  · exact freshName_not_mem _ _
  · have hk := find?_some hfind
    exact (of_decide_eq_true hk).1

/-- What holds of the known names and of every new one holds of all names. -/
theorem forall_names {P : Text → Prop} (hknown : ∀ k ∈ known, P k) {gs : List Group}
    (hnew : ∀ g ∈ gs, P (g.base ++ '@' :: g.min) ∧
      ∀ c, P (g.base ++ '@' :: g.min ++ '#' :: decimal c))
    (taken : List Text) : ∀ n ∈ names known taken gs, P n := by
  induction gs generalizing taken with
  | nil => exact fun _ h => nomatch h
  | cons g gs ih =>
    intro n hn
    rcases mem_cons.1 hn with rfl | hn
    · rw [nameOf]
      rcases hfind : find? _ known with _ | k
      · obtain ⟨hname, hnumber⟩ := hnew g mem_cons_self
        rcases freshName_eq taken (g.base ++ '@' :: g.min) with heq | ⟨c, heq⟩
        · rwa [getD_none, heq]
        · rw [getD_none, heq]
          exact hnumber c
      · exact hknown k (mem_of_find?_eq_some hfind)
    · exact ih (fun g hg => hnew g (.tail _ hg)) _ n hn

theorem names_nodup (known taken : List Text) (gs : List Group) :
    (names known taken gs).Nodup ∧ ∀ n ∈ names known taken gs, n ∉ taken := by
  induction gs generalizing taken with
  | nil => exact ⟨nodup_nil, fun _ h => nomatch h⟩
  | cons g gs ih =>
    obtain ⟨hnodup, hfree⟩ := ih (nameOf known taken g :: taken)
    exact ⟨nodup_cons.2 ⟨fun h => hfree _ h mem_cons_self, hnodup⟩, forall_mem_cons.2
      ⟨nameOf_not_mem known taken g, fun n hn ht => hfree n hn (.tail _ ht)⟩⟩

theorem length_names (known taken : List Text) (gs : List Group) :
    (names known taken gs).length = gs.length := by
  induction gs generalizing taken with
  | nil => rfl
  | cons g gs ih => rw [names, length_cons, ih, length_cons]

theorem names_multi (partials : List Text) :
    ∀ n ∈ names (waitingKeys partials) [] (grouping same rs).groups, multi <+: n := by
  refine forall_names (fun k hk => isPrefixOf_iff_prefix.1 (mem_filter.1 hk).2) (fun g hg => ?_) []
  have hbase := bases_multi same rs g.base (mem_map_of_mem hg)
  exact ⟨hbase.trans (prefix_append ..),
    fun c => (hbase.trans (prefix_append ..)).trans (prefix_append ..)⟩

/-! ## Records of one key -/

section Keyed

variable {same : Text → Text → Bool} {partials : List Text} {rs : List Record}
  {r r' : Record} {k : Text}

theorem base_of_placed {j : ℕ} (h : (r, some j) ∈ (grouping same rs).placed) :
    ∃ b, r.base = some b ∧ ((grouping same rs).groups.map Group.base)[j]? = some b := by
  rcases hbase : r.base with _ | b
  · cases grouping_alone same rs _ h hbase
  · obtain ⟨j', hj, hb⟩ := grouping_sound same rs _ h b hbase
    cases hj
    exact ⟨b, rfl, hb⟩

section

variable (h : (k, r) ∈ keyed same partials rs)
include h

theorem of_mem_keyed : ∃ i id, (grouping same rs).placed[i]? = some (r, id) ∧
      k = keyOf (names (waitingKeys partials) [] (grouping same rs).groups) i id := by
  obtain ⟨⟨⟨r', id⟩, i⟩, hmem, heq⟩ := mem_map.1 h
  obtain ⟨hk, rfl⟩ := Prod.mk.inj heq
  exact ⟨i, id, mem_zipIdx_iff_getElem?.1 hmem, hk.symm⟩

theorem keyed_cases :
    (∃ i id, (grouping same rs).placed[i]? = some (r, id) ∧ k = single ++ decimal (i + 1)) ∨
      ∃ j, (r, some j) ∈ (grouping same rs).placed ∧
        (names (waitingKeys partials) [] (grouping same rs).groups)[j]? = some k := by
  obtain ⟨i, id, hget, hk⟩ := of_mem_keyed h
  have hmem := mem_of_getElem? hget
  rcases hbase : r.base with _ | b
  · left
    have hid : id = none := grouping_alone same rs (r, id) hmem hbase
    rw [hid, keyOf] at hk
    exact ⟨i, id, hget, hk⟩
  · right
    obtain ⟨j, rfl, hb⟩ := grouping_sound same rs (r, id) hmem b hbase
    have hlt : j < (names (waitingKeys partials) [] (grouping same rs).groups).length := by
      rw [length_names, ← length_map Group.base]
      exact (List.getElem?_eq_some_iff.1 hb).1
    rw [keyOf, getD_eq_getElem?_getD, getElem?_eq_getElem hlt, getD_some] at hk
    exact ⟨j, hmem, List.getElem?_eq_some_iff.2 ⟨hlt, hk.symm⟩⟩

/-- Two records of one key are the same record or in one group. -/
theorem keyed_together (h' : (k, r') ∈ keyed same partials rs) :
    r = r' ∨ ∃ j, (r, some j) ∈ (grouping same rs).placed ∧
      (r', some j) ∈ (grouping same rs).placed := by
  have hnames := names_multi same rs partials
  have hclash : ∀ {i : ℕ} {k : Text}, multi <+: k → k ≠ single ++ decimal i := by
    rintro i k ⟨rest, rfl⟩ heq
    exact absurd (cons.inj heq).1 (by decide)
  rcases keyed_cases h with ⟨i, id, hget, hk⟩ | ⟨j, hj, hk⟩
  · rcases keyed_cases h' with ⟨i', id', hget', hk'⟩ | ⟨j', -, hk'⟩
    · left
      rw [hk, append_cancel_left_eq] at hk'
      obtain rfl : i = i' := Nat.succ_injective (decimal_inj hk')
      exact (Prod.mk.inj (Option.some.inj (hget.symm.trans hget'))).1
    · exact absurd hk (hclash (hnames k (mem_of_getElem? hk')))
  · rcases keyed_cases h' with ⟨i', id', -, hk'⟩ | ⟨j', hj', hk'⟩
    · exact absurd hk' (hclash (hnames k (mem_of_getElem? hk)))
    · right
      have hnodup := (names_nodup (waitingKeys partials) [] (grouping same rs).groups).1
      obtain ⟨hlt, heq⟩ := List.getElem?_eq_some_iff.1 hk
      obtain ⟨hlt', heq'⟩ := List.getElem?_eq_some_iff.1 hk'
      obtain rfl : j = j' := (hnodup.getElem_inj_iff).1 (heq.trans heq'.symm)
      exact ⟨j, hj, hj'⟩

/-- **One key, one message**: two records of one key are the same record, or parts of the same
sender, reference and total. -/
theorem keyed_same (h' : (k, r') ∈ keyed same partials rs) :
    r = r' ∨ r.ref.isSome ∧ r.sender = r'.sender ∧ r.ref = r'.ref ∧ r.total = r'.total := by
  refine (keyed_together h h').imp_right ?_
  rintro ⟨j, hj, hj'⟩
  obtain ⟨b, hb, hget⟩ := base_of_placed hj
  obtain ⟨b', hb', hget'⟩ := base_of_placed hj'
  cases hget.symm.trans hget'
  obtain ⟨ref, href, -⟩ := map_eq_some_iff.1 hb
  exact ⟨by rw [href]; rfl, base_inj hb hb'⟩

theorem mem_of_mem_keyed : r ∈ rs := by
  obtain ⟨i, id, hget, -⟩ := of_mem_keyed h
  rw [← map_fst_placed same rs]
  exact mem_map_of_mem (mem_of_getElem? hget)

end

/-- What the name of a group is made of has no tab. -/
def Group.Tabless (g : Group) : Prop := '\t' ∉ g.base ∧ '\t' ∉ g.min

theorem Group.Tabless.add {g : Group} (h : g.Tabless) (hr : r.Plain) : (g.add r).Tabless := by
  refine ⟨h.1, ?_⟩
  rw [Group.add]
  split
  · exact fun hm => (hr r.ts (by simp [Record.fields]) '\t' hm).1 rfl
  · exact h.2

theorem tab_not_mem_decimal (n : ℕ) : '\t' ∉ decimal n := fun hm => (plain_decimal n '\t' hm).1 rfl

theorem tabless_base (hr : r.Plain) {b : Text} (hb : r.base = some b) : '\t' ∉ b := by
  obtain ⟨ref, -, rfl⟩ := map_eq_some_iff.1 hb
  have hsender : '\t' ∉ r.sender := fun hm => (hr r.sender (by simp [Record.fields]) '\t' hm).1 rfl
  have hmulti : '\t' ∉ multi := by decide
  simp [hsender, tab_not_mem_decimal, hmulti]

theorem tabless_grouping (hrs : ∀ r ∈ rs, r.Plain) :
    ∀ g ∈ (grouping same rs).groups, g.Tabless := by
  refine forall_groups (fun r hr b hb => ⟨tabless_base (hrs r hr) hb, fun hm => ?_⟩)
    fun g r hr hg => hg.add (hrs r hr)
  exact (hrs r hr r.ts (by simp [Record.fields]) '\t' hm).1 rfl

theorem tabless_waitingKeys (h : k ∈ waitingKeys partials) : '\t' ∉ k := by
  obtain ⟨l, -, rfl⟩ := mem_map.1 (mem_of_mem_filter h)
  intro hm
  simpa using mem_takeWhile_imp hm

theorem tabless_names (hrs : ∀ r ∈ rs, r.Plain) :
    ∀ n ∈ names (waitingKeys partials) [] (grouping same rs).groups, '\t' ∉ n := by
  refine forall_names (fun k hk => tabless_waitingKeys hk) (fun g hg => ?_) []
  obtain ⟨hb, hmin⟩ := tabless_grouping hrs g hg
  exact ⟨by simp [hb, hmin], fun c => by simp [hb, hmin, tab_not_mem_decimal]⟩

theorem key_field (hrs : ∀ r ∈ rs, r.Plain) (h : (k, r) ∈ keyed same partials rs) :
    k ≠ [] ∧ '\t' ∉ k := by
  rcases keyed_cases h with ⟨i, id, -, rfl⟩ | ⟨j, -, hk⟩
  · have hsingle : '\t' ∉ single := by decide
    exact ⟨by simp [single], by simp [hsingle, tab_not_mem_decimal]⟩
  · have hmem := mem_of_getElem? hk
    obtain ⟨rest, rfl⟩ := names_multi same rs partials k hmem
    exact ⟨by simp [multi], tabless_names hrs _ hmem⟩

end Keyed

end Mu300.Sms
