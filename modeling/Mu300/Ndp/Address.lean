import Mu300.Lib.Glob
import Mu300.Lib.Hex

/-!
# Addresses inside a prefix

`ndp-learn` compares texts: the addresses as `ip` prints them with a prefix that it makes from
`/proc/net/if_inet6`.
-/

namespace Mu300.Ndp

open Shell Glob List

/-- A group of sixteen bits. -/
abbrev Group := BitVec 16

structure Address where
  net : List Group
  host : List Group
  net_length : net.length = 4
  host_length : host.length = 4

/-! ## What `ip` prints -/

/-- `%x`. -/
def hex (g : Group) : Text := Nat.toDigits 16 g.toNat

def join (gs : List Group) : Text := [':'].intercalate (gs.map hex)

/-- How many groups are zero from here on. -/
def zeros (gs : List Group) (i : ℕ) : ℕ := ((gs.drop i).takeWhile (· = 0)).length

def longer (gs : List Group) (best : ℕ × ℕ) (i : ℕ) : ℕ × ℕ :=
  if best.2 < zeros gs i then (i, zeros gs i) else best

/-- The first of the longest runs of zeros, and its length; a zero by itself is no run. -/
def longest (gs : List Group) : ℕ × ℕ := (range 8).foldl (longer gs) (0, 1)

variable (a : Address) {net gs : List Group} {f : Text} (g : Group)

def Address.groups : List Group := a.net ++ a.host

/-- `::ffff:0:0/96`. -/
def Address.isMapped : Bool := a.net = [0, 0, 0, 0] && a.host.take 2 = [0, 0xffff]

/-- An address as `ip` prints it: the longest run of zeros is two colons, and a mapped one ends as
an IPv4 address. -/
def Address.text : Text :=
  let (i, n) := longest a.groups
  if a.isMapped then
    [':', ':', 'f', 'f', 'f', 'f', ':'] ++ ['.'].intercalate ((a.host.drop 2).flatMap fun g =>
      [Nat.toDigits 10 (g.toNat / 256), Nat.toDigits 10 (g.toNat % 256)])
  else if n < 2 then join a.groups
  else join (a.groups.take i) ++ [':', ':'] ++ join (a.groups.drop (i + n))

/-! ## The script -/

/-- `[0-9a-f]`. -/
def hexDigits : Text :=
  ['0', '1', '2', '3', '4', '5', '6', '7', '8', '9', 'a', 'b', 'c', 'd', 'e', 'f']

/-- `sub(/^0+/,"",h); if (h=="") h="0"`. -/
def stripped (h : Text) : Text :=
  if h.dropWhile (· = '0') = [] then ['0'] else h.dropWhile (· = '0')

/-- The four groups in front, of 32 digits. -/
def stem (h : Text) : Text :=
  [':'].intercalate ((range 4).map fun i => stripped ((h.drop (i * 4)).take 4))

/-- A line of the bearer, with a global unicast address. -/
def isBearer (iface l : Text) : Bool :=
  field l 6 = iface && field l 4 = ['0', '0'] && (field l 1).length = 32 &&
    ((field l 1).head? = some '2' || (field l 1).head? = some '3') &&
      (field l 1).all (· ∈ hexDigits)

def bearerPrefix (iface table : Text) : List Text :=
  (((lines table).filter (isBearer iface)).map fun l =>
    stem (field l 1) ++ [':', ':', '/', '6', '4']).dedup.insertionSort fun a b => !before b a

def inPrefix (addr stem : Text) : Bool :=
  if addr = [] || addr.head? = some '-' ||
    addr.any (fun ch => !(ch ∈ hexDigits || ch = ':')) then false
  else if addr = stem ++ [':', ':'] then false
  else (stem ++ [':']).isPrefixOf addr

/-- The network of the address in a line. -/
def netOf (h : Text) : List Group :=
  (range 4).map fun i => BitVec.ofNat 16 (Hex.value ((h.drop (i * 4)).take 4))

/-! ## Groups as texts -/

theorem digitChar_hexval {ch : Char} (h : ch ∈ hexDigits) :
    Hex.hexval ch < 16 ∧ (Hex.hexval ch).digitChar = ch := by
  have hall : hexDigits.all (fun ch => Hex.hexval ch < 16 && (Hex.hexval ch).digitChar = ch) := by
    decide
  simpa using all_eq_true.1 hall ch h

theorem hexval_digitChar {d : ℕ} (h : d < 16) :
    d.digitChar ∈ hexDigits ∧ Hex.hexval d.digitChar = d := by
  revert d
  decide

theorem value_concat (c : Text) (ch : Char) :
    Hex.value (c ++ [ch]) = 16 * Hex.value c + Hex.hexval ch := by
  simp [Hex.value, Nat.ofDigits_cons, Nat.add_comm]

theorem toDigits_hex (n : ℕ) :
    Hex.value (Nat.toDigits 16 n) = n ∧ ∀ ch ∈ Nat.toDigits 16 n, ch ∈ hexDigits := by
  induction n using Nat.strong_induction_on with
  | _ n ih =>
    rw [Nat.toDigits_eq_if (by decide)]
    split
    next h =>
      obtain ⟨hmem, hval⟩ := hexval_digitChar h
      exact ⟨by simp [Hex.value, hval], by simpa using hmem⟩
    next h =>
      obtain ⟨hmem, hval⟩ := hexval_digitChar (Nat.mod_lt n (by decide : 0 < 16))
      obtain ⟨hdiv, hdigits⟩ := ih (n / 16) (by omega)
      refine ⟨?_, forall_mem_append.2 ⟨hdigits, forall_mem_singleton.2 hmem⟩⟩
      rw [value_concat, hdiv, hval]
      omega

theorem hex_injective : Function.Injective hex := fun g g' h => by
  have hval := congrArg Hex.value h
  rw [hex, hex, (toDigits_hex _).1, (toDigits_hex _).1] at hval
  exact BitVec.eq_of_toNat_eq hval

theorem hex_ne_nil : hex g ≠ [] := Nat.toDigits_ne_nil

theorem colon_not_mem_hex : ':' ∉ hex g := fun h =>
  absurd ((toDigits_hex _).2 _ h) (by decide)

theorem stripped_eq {c : Text} (h : ∀ ch ∈ c, ch ∈ hexDigits) :
    stripped c = Nat.toDigits 16 (Hex.value c) := by
  induction c using reverseRecOn with
  | nil => rfl
  | append_singleton c ch ih =>
    have hc := ih fun x hx => h x (mem_append_left _ hx)
    obtain ⟨hlt, hchar⟩ := digitChar_hexval (h ch (mem_append_right _ (mem_singleton_self ch)))
    have hlast : Nat.toDigits 16 (Hex.hexval ch) = [ch] := by
      rw [Nat.toDigits_of_lt_base hlt, hchar]
    have hdrop := @dropWhile_append _ (· = '0') c [ch]
    rw [stripped] at hc
    rw [stripped, value_concat, hdrop]
    split at hc
    next hnil =>
      -- nothing but zeros so far
      have hzero : Hex.value c = 0 := by
        rw [← (toDigits_hex (Hex.value c)).1, ← hc]
        rfl
      rw [hzero, Nat.mul_zero, Nat.zero_add, hlast, hnil]
      by_cases hch : ch = '0'
      · simp [hch]
      · simp [hch]
    next hne =>
      have hpos : 0 < Hex.value c := by
        rw [Nat.pos_iff_ne_zero]
        intro hzero
        have hhead := head?_dropWhile_not (· = '0') c
        rw [hc, hzero, Nat.toDigits_zero] at hhead
        simp at hhead
      rw [← Nat.toDigits_append_toDigits (by decide) hpos hlt, hlast, ← hc]
      simp [hne]

theorem stem_eq {iface l : Text} (h : isBearer iface l) :
    stem (field l 1) = join (netOf (field l 1)) := by
  simp only [isBearer, Bool.and_eq_true, decide_eq_true_eq, all_eq_true] at h
  rw [stem, join, netOf, map_map]
  refine congrArg _ (map_congr_left fun i _ => ?_)
  rw [Function.comp_apply]
  have hdigits : ∀ ch ∈ ((field l 1).drop (i * 4)).take 4, ch ∈ hexDigits := fun ch hch =>
    h.2 ch (mem_of_mem_drop (mem_of_mem_take hch))
  have hlen := length_take_le 4 ((field l 1).drop (i * 4))
  generalize ((field l 1).drop (i * 4)).take 4 = c at hdigits hlen ⊢
  have hlt : Hex.value c < 2 ^ 16 := by
    refine lt_of_lt_of_le (Nat.ofDigits_lt_base_pow_length (by decide) fun d hd => ?_)
      (Nat.pow_le_pow_right (n := 16) (j := 4) (by decide) (by simpa using hlen))
    obtain ⟨ch, hch, rfl⟩ := mem_map.1 hd
    exact (digitChar_hexval (hdigits ch (mem_reverse.1 hch))).1
  rw [stripped_eq hdigits, hex, BitVec.toNat_ofNat, Nat.mod_eq_of_lt hlt]

/-! ## The longest run -/

theorem zeros_le (gs : List Group) (i : ℕ) : zeros gs i ≤ gs.length - i := by
  rw [zeros, ← length_drop]
  exact (takeWhile_sublist _).length_le

theorem longest_spec (gs : List Group) :
    (∀ i < 8, zeros gs i ≤ (longest gs).2) ∧
    (2 ≤ (longest gs).2 → zeros gs (longest gs).1 = (longest gs).2) := by
  have hrun : ∀ n, (∀ i < n, zeros gs i ≤ ((range n).foldl (longer gs) (0, 1)).2) ∧
      (2 ≤ ((range n).foldl (longer gs) (0, 1)).2 →
        zeros gs ((range n).foldl (longer gs) (0, 1)).1 =
          ((range n).foldl (longer gs) (0, 1)).2) := by
    intro n
    induction n with
    | zero =>
      exact ⟨fun i hi => absurd hi (Nat.not_lt_zero i), fun h => absurd (a := 2 ≤ 1) h (by decide)⟩
    | succ n ih =>
      rw [range_succ, foldl_append]
      simp only [foldl_cons, foldl_nil, longer]
      grind
  exact hrun 8

theorem Address.length_groups : a.groups.length = 8 := by
  rw [groups, length_append, a.net_length, a.host_length]

theorem Address.zeros_host : zeros a.groups 4 = 4 ↔ a.host = [0, 0, 0, 0] := by
  have hdrop : a.groups.drop 4 = a.host := drop_left' a.net_length
  have hall : (a.host.takeWhile (· = 0)).length = 4 ↔ a.host.takeWhile (· = 0) = a.host :=
    ⟨fun h => (takeWhile_sublist _).eq_of_length (h.trans a.host_length.symm),
      fun h => by rw [h, a.host_length]⟩
  have hzero : a.host = [0, 0, 0, 0] ↔ a.host.length = 4 ∧ ∀ g ∈ a.host, g = 0 :=
    eq_replicate_iff (n := 4) (a := 0) (l := a.host)
  rw [zeros, hdrop, hall, takeWhile_eq_self_iff, hzero]
  simp [a.host_length]

/-! ## Fields between colons -/

section Fields

variable {fs gs : List Text}

theorem intercalate_append (hf : fs ≠ []) (hg : gs ≠ []) :
    [':'].intercalate (fs ++ gs) = [':'].intercalate fs ++ ':' :: [':'].intercalate gs := by
  induction fs with
  | nil => exact absurd rfl hf
  | cons f fs ih =>
    by_cases hnil : fs = []
    · rw [hnil, singleton_append, intercalate_cons_of_ne_nil hg, intercalate_singleton,
        append_assoc]
      rfl
    · rw [cons_append, intercalate_cons_of_ne_nil (append_ne_nil_of_left_ne_nil hnil gs), ih hnil,
        intercalate_cons_of_ne_nil hnil, append_assoc, append_assoc, append_assoc]

theorem intercalate_inj (hf : ∀ f ∈ fs, ':' ∉ f) (hg : ∀ g ∈ gs, ':' ∉ g) (hfs : fs ≠ [])
    (hgs : gs ≠ []) (h : [':'].intercalate fs = [':'].intercalate gs) : fs = gs := by
  rw [← splitOn_intercalate ':' hf hfs, h, splitOn_intercalate ':' hg hgs]

theorem starts_iff (hf : ∀ f ∈ fs, ':' ∉ f) (hg : ∀ g ∈ gs, ':' ∉ g) (hfs : fs ≠ [])
    (hgs : gs ≠ []) :
    ([':'].intercalate fs ++ [':']).isPrefixOf ([':'].intercalate gs) ↔
      ∃ rest, rest ≠ [] ∧ gs = fs ++ rest := by
  refine isPrefixOf_iff_prefix.trans ⟨?_, ?_⟩
  · rintro ⟨t, ht⟩
    have hne : t.splitOn ':' ≠ [] := splitOn_ne_nil ':' t
    refine ⟨t.splitOn ':', hne, (intercalate_inj (fun f hmem => ?_) hg (by simp) hgs ?_).symm⟩
    · rcases mem_append.1 hmem with hmem | hmem
      · exact hf f hmem
      · exact (of_mem_splitOn hmem).1
    · rw [intercalate_append hfs hne, intercalate_splitOn, ← ht, append_assoc]
      rfl
  · rintro ⟨rest, hrest, rfl⟩
    rw [intercalate_append hfs hrest]
    exact ⟨[':'].intercalate rest, by rw [append_assoc]; rfl⟩

end Fields

/-- The fields of a part beside two colons; there is one also where the part is empty. -/
def part (gs : List Group) : List Text := if gs = [] then [[]] else gs.map hex

/-- What stands between the colons of an address. -/
def Address.fields : List Text :=
  if (longest a.groups).2 < 2 then a.groups.map hex
  else part (a.groups.take (longest a.groups).1) ++ [] :: part
    (a.groups.drop ((longest a.groups).1 + (longest a.groups).2))

theorem part_ne_nil (gs : List Group) : part gs ≠ [] := by
  unfold part
  split <;> simp_all

theorem intercalate_part (gs : List Group) : [':'].intercalate (part gs) = join gs := by
  unfold part join
  split
  next h => rw [h]; rfl
  · rfl

theorem mem_part (h : f ∈ part gs) : f = [] ∨ ∃ g, f = hex g := by
  unfold part at h
  split at h
  · exact .inl (mem_singleton.1 h)
  · obtain ⟨g, -, rfl⟩ := mem_map.1 h
    exact .inr ⟨g, rfl⟩

theorem Address.mem_fields {a : Address} (h : f ∈ a.fields) : f = [] ∨ ∃ g, f = hex g := by
  unfold Address.fields at h
  split at h
  · obtain ⟨g, -, rfl⟩ := mem_map.1 h
    exact .inr ⟨g, rfl⟩
  · rcases mem_append.1 h with h | h
    · exact mem_part h
    · rcases mem_cons.1 h with h | h
      · exact .inl h
      · exact mem_part h

theorem Address.fields_ne_nil : a.fields ≠ [] := by
  unfold Address.fields
  split
  · exact fun h => by simpa [map_eq_nil_iff.1 h] using a.length_groups
  · simp

theorem Address.text_eq {a : Address} (h : ¬ a.isMapped) : a.text = [':'].intercalate a.fields := by
  unfold Address.text Address.fields
  dsimp only
  rw [if_neg h]
  split
  · rfl
  · rw [intercalate_append (part_ne_nil _) (by simp), intercalate_part,
      intercalate_cons_of_ne_nil (part_ne_nil _), intercalate_part, append_assoc]
    rfl

theorem colon_not_mem_fields {a : Address} : ∀ f ∈ a.fields, ':' ∉ f := by
  intro f hf
  rcases a.mem_fields hf with rfl | ⟨g, rfl⟩
  · simp
  · exact colon_not_mem_hex g

/-! ## The comparison -/

/-- The two colons stand among the groups of the network. -/
def Address.squeezed : Bool := 2 ≤ (longest a.groups).2 && (longest a.groups).1 < 4

theorem Address.fields_of_squeezed {a : Address} (h : a.squeezed) :
    (longest a.groups).1 < 4 ∧ a.fields[(longest a.groups).1]? = some [] := by
  rw [squeezed, Bool.and_eq_true, decide_eq_true_eq, decide_eq_true_eq] at h
  refine ⟨h.2, ?_⟩
  rw [Address.fields, if_neg (by omega)]
  by_cases hzero : (longest a.groups).1 = 0
  · simp [hzero, part]
  · have htake : ((a.groups.take (longest a.groups).1).map hex).length = (longest a.groups).1 := by
      rw [length_map, length_take, a.length_groups]
      omega
    have hpart : part (a.groups.take (longest a.groups).1) =
        (a.groups.take (longest a.groups).1).map hex :=
      if_neg fun hnil => by simp [hnil] at htake; omega
    rw [hpart, getElem?_append_right htake.le, htake, Nat.sub_self]
    rfl

theorem part_eq_empty : part gs = [[]] ↔ gs = [] := by
  unfold part
  constructor
  · intro h
    split at h
    · assumption
    · obtain ⟨g, -, hg⟩ := map_eq_singleton_iff.1 h
      exact absurd hg (hex_ne_nil g)
  · intro h
    rw [if_pos h]

/-- Otherwise the network is there in full, and only the router's address ends in two colons behind
it. -/
theorem Address.fields_of_not_squeezed {a : Address} (h : ¬ a.squeezed) :
    ∃ rest, rest ≠ [] ∧ a.fields = a.net.map hex ++ rest ∧
      (rest = [[], []] ↔ a.host = [0, 0, 0, 0]) := by
  obtain ⟨hmax, hself⟩ := longest_spec a.groups
  have hhost := hmax 4 (by decide)
  have hle := zeros_le a.groups (longest a.groups).1
  rw [a.length_groups] at hle
  rw [squeezed, Bool.and_eq_true, decide_eq_true_eq, decide_eq_true_eq] at h
  rw [Address.fields]
  split
  next hshort =>
    refine ⟨a.host.map hex, ?_, by rw [groups, map_append], ?_, fun hzero => ?_⟩
    · simp [← length_eq_zero_iff, a.host_length]
    · intro heq
      have hlen := congrArg length heq
      rw [length_map, a.host_length] at hlen
      cases hlen
    · rw [a.zeros_host.2 hzero] at hhost
      omega
  next hlong =>
    obtain ⟨k, hk⟩ : ∃ k, (longest a.groups).1 = 4 + k := ⟨(longest a.groups).1 - 4, by omega⟩
    generalize (longest a.groups).2 = n at *
    rw [hk] at hself hle ⊢
    have htake : a.groups.take (4 + k) = a.net ++ a.host.take k := by
      rw [groups, ← a.net_length, take_length_add_append]
    have hpart : part (a.net ++ a.host.take k) = a.net.map hex ++ (a.host.take k).map hex := by
      rw [part, if_neg, map_append]
      simp [← length_eq_zero_iff, a.net_length]
    refine ⟨(a.host.take k).map hex ++ [] :: part (a.groups.drop (4 + k + n)),
      by simp, ?_, fun heq => ?_, fun hzero => ?_⟩
    · rw [htake, hpart, append_assoc]
    · cases hfirst : a.host.take k with
      | cons g gs =>
        rw [hfirst] at heq
        exact absurd (cons.inj heq).1 (hex_ne_nil g)
      | nil =>
        have hlen := congrArg length hfirst
        rw [length_take, a.host_length, length_nil] at hlen
        obtain rfl : k = 0 := by omega
        have hdrop := congrArg length (part_eq_empty.1 (cons.inj heq).2)
        rw [length_drop, a.length_groups, length_nil] at hdrop
        rw [Nat.add_zero] at hself hle hdrop
        exact a.zeros_host.1 (by omega)
    · rw [a.zeros_host.2 hzero] at hhost
      obtain ⟨rfl, rfl⟩ : k = 0 ∧ n = 4 := by omega
      have hdrop : a.groups.drop 8 = [] := drop_of_length_le a.length_groups.le
      simp [part, hdrop]

theorem Address.of_mapped {a : Address} (h : a.isMapped) : '.' ∈ a.text ∧ a.squeezed := by
  obtain ⟨hmax, hself⟩ := longest_spec a.groups
  have hle := zeros_le a.groups (longest a.groups).1
  obtain ⟨x, y, hxy⟩ : ∃ x y, a.host.drop 2 = [x, y] := length_eq_two.1 (by simp [a.host_length])
  have hgroups : a.isMapped → a.groups = [0, 0, 0, 0, 0, 0xffff, x, y] := by
    intro h
    rw [isMapped, Bool.and_eq_true, decide_eq_true_eq, decide_eq_true_eq] at h
    rw [groups, h.1, ← take_append_drop 2 a.host, h.2, hxy]
    rfl
  refine ⟨?_, ?_⟩
  · rw [Address.text]
    dsimp only
    rw [if_pos h, hxy]
    simp
  · have hfive : zeros a.groups 0 = 5 := by
      rw [hgroups h]
      rfl
    have hzero := hmax 0 (by decide)
    rw [a.length_groups] at hle
    rw [squeezed, Bool.and_eq_true, decide_eq_true_eq, decide_eq_true_eq]
    omega

theorem inPrefix_of_not_mapped {a : Address} (hnet : net.length = 4) (h : ¬ a.isMapped) :
    inPrefix a.text (join net) ↔
      ∃ rest, (rest ≠ [] ∧ rest ≠ [[], []]) ∧ a.fields = net.map hex ++ rest := by
  have hne : net.map hex ≠ [] := by
    rw [Ne, map_eq_nil_iff, ← length_eq_zero_iff, hnet]
    decide
  have hcolon : ∀ f ∈ net.map hex, ':' ∉ f := by
    intro f hf
    obtain ⟨g, -, rfl⟩ := mem_map.1 hf
    exact colon_not_mem_hex g
  have hstarts := starts_iff hcolon (colon_not_mem_fields (a := a)) hne a.fields_ne_nil
  have hrouter : join net ++ [':', ':'] = [':'].intercalate (net.map hex ++ [[], []]) := by
    rw [intercalate_append hne (cons_ne_nil _ _)]
    rfl
  rw [inPrefix, a.text_eq h]
  constructor
  · intro hin
    split at hin
    · cases hin
    split at hin
    · cases hin
    next hnot =>
      obtain ⟨rest, hrest, heq⟩ := hstarts.1 hin
      refine ⟨rest, ⟨hrest, ?_⟩, heq⟩
      rintro rfl
      exact hnot (by rw [heq, hrouter])
  · rintro ⟨rest, ⟨hrest, hnot⟩, heq⟩
    have hin := hstarts.2 ⟨rest, hrest, heq⟩
    have hchars : ∀ ch ∈ [':'].intercalate a.fields, ch ∈ hexDigits ∨ ch = ':' := by
      intro ch hch
      rcases mem_intercalate hch with hch | ⟨f, hf, hch⟩
      · exact .inr hch
      · rcases a.mem_fields hf with rfl | ⟨g, rfl⟩
        · cases hch
        · exact .inl ((toDigits_hex _).2 ch hch)
    have hplain : ¬ ([':'].intercalate a.fields = [] ∨
      ([':'].intercalate a.fields).head? = some '-' ∨
        ∃ ch ∈ [':'].intercalate a.fields, ¬ (ch ∈ hexDigits ∨ ch = ':')) := by
      rintro (hnil | hdash | ⟨ch, hch, hother⟩)
      · rw [hnil] at hin
        simp at hin
      · rcases hchars '-' (mem_of_mem_head? hdash) with hdash | hdash
        · exact absurd hdash (by decide)
        · cases hdash
      · exact hother (hchars ch hch)
    rw [if_neg (by simpa [or_assoc] using hplain), if_neg ?_]
    · exact hin
    intro hends
    rw [hrouter] at hends
    have hfields := intercalate_inj colon_not_mem_fields (fun f hf => ?_) a.fields_ne_nil
      (by simp) hends
    · exact hnot (append_cancel_left (heq.symm.trans hfields))
    · rcases mem_append.1 hf with hf | hf
      · exact hcolon f hf
      · simp_all

theorem inPrefix_text (hnet : net.length = 4) (a : Address) :
    inPrefix a.text (join net) ↔ (a.net = net ∧ a.host ≠ [0, 0, 0, 0]) ∧ ¬ a.squeezed := by
  by_cases hmapped : a.isMapped
  · obtain ⟨hdot, hsq⟩ := a.of_mapped hmapped
    have hno : inPrefix a.text (join net) = false := by
      rw [inPrefix, if_pos]
      rw [Bool.or_eq_true, any_eq_true]
      exact .inr ⟨'.', hdot, by decide⟩
    exact iff_of_false (by simp [hno]) fun h => h.2 hsq
  rw [inPrefix_of_not_mapped hnet hmapped]
  by_cases hsq : a.squeezed
  · obtain ⟨hlt, hfield⟩ := a.fields_of_squeezed hsq
    refine iff_of_false ?_ fun h => h.2 hsq
    rintro ⟨rest, -, heq⟩
    rw [heq, getElem?_append_left (by rw [length_map, hnet]; exact hlt), getElem?_map,
      Option.map_eq_some_iff] at hfield
    obtain ⟨g, -, hg⟩ := hfield
    exact hex_ne_nil g hg
  · obtain ⟨rest, hrest, hfields, hzero⟩ := a.fields_of_not_squeezed hsq
    rw [hfields]
    constructor
    · rintro ⟨rest', ⟨-, hnot⟩, heq⟩
      obtain ⟨hnets, rfl⟩ := append_inj heq (by rw [length_map, length_map, hnet, a.net_length])
      exact ⟨⟨map_injective_iff.2 hex_injective hnets, fun h => hnot (hzero.2 h)⟩, hsq⟩
    · rintro ⟨⟨rfl, hhost⟩, -⟩
      exact ⟨rest, ⟨hrest, fun h => hhost (hzero.1 h)⟩, rfl⟩

theorem mem_bearerPrefix {iface table p : Text} : p ∈ bearerPrefix iface table ↔
    ∃ l ∈ lines table, isBearer iface l ∧ p = stem (field l 1) ++ [':', ':', '/', '6', '4'] := by
  rw [bearerPrefix, mem_insertionSort, mem_dedup, mem_map]
  simp only [mem_filter, and_assoc, eq_comm]

/-- **The text and the bits.** For a prefix of the bearer, `in_prefix` says yes exactly to the
addresses of its network that are not the router's own, but for those of them that have the two
colons among the groups of the network. -/
theorem in_prefix_exact_iff (iface table p : Text) (hp : p ∈ bearerPrefix iface table) :
    ∃ l ∈ lines table, isBearer iface l ∧ p = stem (field l 1) ++ [':', ':', '/', '6', '4'] ∧
      ∀ a : Address,
      ((inPrefix a.text (cutBack (glob "::/64") p) ↔ a.net = netOf (field l 1) ∧
        a.host ≠ [0, 0, 0, 0]) ↔
        ¬ ((a.net = netOf (field l 1) ∧ a.host ≠ [0, 0, 0, 0]) ∧ a.squeezed)) := by
  obtain ⟨l, hl, hbearer, rfl⟩ := mem_bearerPrefix.1 hp
  refine ⟨l, hl, hbearer, rfl, fun a => ?_⟩
  rw [cutBack_fixed (by decide) (by decide), stem_eq hbearer, inPrefix_text (by simp [netOf])]
  tauto

/-- A line of `/proc/net/if_inet6`. -/
def bearerLine (addr : String) : Text := addr.toList ++ " 02 40 00 80 sipa_eth0\n"

/-- The prefix of one line, and every address that is compared with it. -/
theorem in_prefix_of_line :
    "2001:db8:1:2::/64".toList ∈ bearerPrefix "sipa_eth0".toList
      (bearerLine "20010db8000100020000000000000007") ∧
      ∃ l ∈ lines (bearerLine "20010db8000100020000000000000007"),
        ∀ a : Address, a.squeezed = false →
        (inPrefix a.text (cutBack (glob "::/64") "2001:db8:1:2::/64") ↔
          a.net = netOf (field l 1) ∧ a.host ≠ [0, 0, 0, 0]) := by
  have hp : "2001:db8:1:2::/64".toList ∈
      bearerPrefix "sipa_eth0" (bearerLine "20010db8000100020000000000000007") := by decide +kernel
  obtain ⟨l, hl, -, -, hall⟩ := in_prefix_exact_iff _ _ _ hp
  exact ⟨hp, l, hl, fun a ha =>
    (hall a).2 fun h => by rw [ha] at h; exact absurd h.2 Bool.false_ne_true⟩

/-- `2001:db8::1` is on the link, and the text of its prefix is not in front of it. -/
theorem squeezed_missed :
    ∃ a : Address, a.text = "2001:db8::1" ∧ a.net = netOf "20010db8000000000000000000000007" ∧
      a.host ≠ [0, 0, 0, 0] ∧
      bearerPrefix "sipa_eth0" (bearerLine "20010db8000000000000000000000007") =
        ["2001:db8:0:0::/64"] ∧
      inPrefix a.text (cutBack (glob "::/64") "2001:db8:0:0::/64") = false := by
  refine ⟨⟨[0x2001, 0xdb8, 0, 0], [0, 0, 0, 1], rfl, rfl⟩, ?_⟩
  decide +kernel

end Mu300.Ndp
