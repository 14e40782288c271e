import Mu300.Accounts.Places

/-!
# Passwords of an updated system

The images come with well-known passwords, so none of them may open a system that was updated. The
merge takes the old line of every account that both systems have, and what only the image has is
locked at the end.
-/

namespace Mu300.Accounts

open Shell Awk List

variable {old new now : Etc} {a : Text} {shadow : List Secret} {l : Secret}

/-- The account has its line of the old system, and no other. -/
structure KeepsPassword (old now : Etc) (a : Text) : Prop where
  some : ∃ l ∈ now.shadow, l.name = a
  only : ∀ l ∈ now.shadow, l.name = a → last? Secret.name a old.shadow = Option.some l

/-- No password matches a field of `passwd`: it refers to `shadow`, or is locked. -/
def shut (password : Text) : Bool := password = "x" || locked password

/-- No password opens the account: it has none in `passwd`, and it is locked in `shadow`. -/
structure Closed (now : Etc) (a : Text) : Prop where
  shut : ∀ l ∈ now.passwd, l.name = a → shut l.password
  locked : ∀ l ∈ now.shadow, l.name = a → locked l.password

/-- The merge has a line for the account: the image's `shadow` has one to put the old one in place
of, or it is a user's. -/
def HasLine (old new : Etc) (a : Text) : Prop :=
  a ∈ new.shadow.map Secret.name ∨ a ∈ locals old.passwd

instance (old new : Etc) (a : Text) : Decidable (HasLine old new a) :=
  inferInstanceAs (Decidable (_ ∨ _))

/-! ## The lock -/

/-- The lock leaves the accounts of the old system alone. -/
theorem mem_lock_of_mem {old : List Passwd} (ha : a ∈ old.map Line.name) (hl : l.name = a) :
    l ∈ lock old shadow ↔ l ∈ shadow := by
  have hne : old.isEmpty = false := by
    rcases old with _ | _
    · exact absurd ha not_mem_nil
    · rfl
  rw [lock, hne, if_neg Bool.false_ne_true, mem_map]
  constructor
  · rintro ⟨l', hl', he⟩
    split at he
    · next hc =>
      -- it would have another name
      subst he
      exact absurd (hl ▸ ha) hc.1
    · exact he ▸ hl'
  · intro hmem
    exact ⟨l, hmem, if_neg fun hc => hc.1 (hl ▸ ha)⟩

theorem locked_of_mem_lock {old : List Passwd}
    (hl : l ∈ lock old shadow) (ha : l.name ∉ old.map Line.name) : locked l.password := by
  unfold lock at hl
  split at hl
  · exact nomatch hl
  · obtain ⟨l', _, he⟩ := mem_map.1 hl
    split at he
    · subst he
      rfl
    · next hc =>
      subst he
      exact not_not.1 fun h => hc ⟨ha, h⟩

/-! ## The accounts of the update -/

/-- A line of `passwd` for an account that the old system lacks is the image's. -/
theorem passwd_of_image (h : Updated old new now) {l : Passwd} (hl : l ∈ now.passwd)
    (ha : l.name ∉ old.passwd.map Line.name) :
    ∃ n ∈ new.passwd, n.name = l.name ∧ n.password = l.password := by
  obtain ⟨ps, hps⟩ := places_placed
    (regroup (carryIdmap old new .group ++ (carryAccountsPlan old new).group.map)) old.passwd
    new.passwd
  rw [h.passwd, mem_map] at hl
  obtain ⟨m, hm, rfl⟩ := hl
  rw [field_renumber Line.name fun _ _ => rfl] at ha ⊢
  rw [field_renumber Line.password fun _ _ => rfl]
  rcases mem_append.1 hm with hm | hm
  · rw [mergeAccounts, mergeFile_eq fun he => by rw [he]; rfl] at hm
    rcases mem_append.1 hm with hm | hm
    · obtain ⟨n, hn, rfl⟩ := mem_map.1 hm
      rcases last? Line.name n.name old.passwd with _ | o <;> exact ⟨n, hn, rfl, rfl⟩
    · obtain ⟨x, _, hx⟩ := mem_filterMap.1 hm
      split at hx
      · exact absurd (mem_map_of_mem (mem_of_last? hx)) ha
      · cases hx
  · obtain ⟨q, hq, _, rfl⟩ := hps.mem_add hm
    exact absurd (mem_map_of_mem (f := Line.name) (hps.other q hq).1) ha

/-- The image's lines of `passwd` keep their password field. -/
theorem image_in_passwd (h : Updated old new now) {n : Passwd} (hn : n ∈ new.passwd) :
    ∃ l ∈ now.passwd, l.name = n.name ∧ l.password = n.password := by
  rw [h.passwd]
  refine ⟨_, mem_map_of_mem (mem_append_left _ (?_ : n ∈ _)),
    field_renumber Line.name (fun _ _ => rfl) n, field_renumber Line.password (fun _ _ => rfl) n⟩
  rw [mergeAccounts, mergeFile_eq fun he => by rw [he]; rfl]
  refine mem_append_left _ (mem_map.2 ⟨n, hn, ?_⟩)
  rcases last? Line.name n.name old.passwd with _ | o <;> rfl

/-- The lines of `shadow` for an account that both systems have. -/
theorem mem_shadow_of_both (h : Updated old new now)
    (hold : ∀ l ∈ old.passwd, l.name ∈ old.shadow.map Secret.name)
    (ha : a ∈ old.passwd.map Line.name) (ha' : a ∈ new.passwd.map Line.name) (hl : l.name = a) :
    l ∈ now.shadow ↔ HasLine old new a ∧ last? Secret.name a old.shadow = some l := by
  have hempty : old.shadow = [] → locals old.passwd = [] := by
    intro he
    rcases hp : old.passwd with _ | ⟨p, _⟩
    · rfl
    · have := hold p (hp ▸ mem_cons_self)
      rw [he] at this
      exact nomatch this
  rw [h.shadow, mem_lock_of_mem ha hl, mem_append, mergeAccounts, mergeFile_eq hempty, mem_append]
  constructor
  · rintro ((hm | hm) | hm)
    · obtain ⟨n, hn, he⟩ := mem_map.1 hm
      obtain ⟨p, hp, rfl⟩ := mem_map.1 ha
      obtain ⟨s, hs, hsn⟩ := mem_map.1 (hold p hp)
      rcases ho : last? Secret.name n.name old.shadow with _ | o
      · -- then the line is the image's own, but the old system has one of the name
        rw [ho] at he
        obtain rfl : n = l := he
        obtain ⟨s', hs'⟩ := last?_isSome Secret.name hs
        rw [hsn, ← hl, ho] at hs'
        exact nomatch hs'
      · rw [ho] at he
        obtain rfl : o = l := he
        rw [← hl, key_of_last? ho]
        exact ⟨.inl (mem_map_of_mem hn), ho⟩
    · obtain ⟨x, _, hx⟩ := mem_filterMap.1 hm
      split at hx
      · next hc =>
        obtain rfl : x = a := (key_of_last? hx).symm.trans hl
        exact ⟨.inr hc.2, hx⟩
      · exact nomatch hx
    · -- an account that is added is not one of the image
      obtain ⟨_, hadd⟩ := mem_filter.1 hm
      obtain ⟨p, hp, hpl⟩ := mem_map.1 (of_decide_eq_true hadd)
      obtain ⟨ps, hps⟩ := places_placed
        (regroup (carryIdmap old new .group ++ (carryAccountsPlan old new).group.map)) old.passwd
        new.passwd
      obtain ⟨q, hq, _, rfl⟩ := hps.mem_add hp
      have hqa : q.1.name = a := hpl.trans hl
      exact absurd (hqa ▸ ha') (hps.other q hq).2
  · rintro ⟨hline, ho⟩
    by_cases hs : a ∈ new.shadow.map Secret.name
    · obtain ⟨n, hn, rfl⟩ := mem_map.1 hs
      exact .inl (.inl (mem_map.2 ⟨n, hn, by rw [ho]; rfl⟩))
    · have hkey : a ∈ keys Secret.name old.shadow :=
        mem_keys.2 ⟨l, mem_of_last? ho, key_of_last? ho⟩
      refine .inl (.inr (mem_filterMap.2 ⟨a, hkey, ?_⟩))
      rw [if_pos ⟨hs, hline.resolve_left hs⟩, ho]

/-- **An image's password never opens an updated system**, but for the two ways in which an image
can do without shadow passwords. An account that both systems have has the line of the old system
exactly if the merge has a line for it, and any other account is closed exactly if the image's
`passwd` gives it no password. -/
theorem passwords_are_the_old (old new now : Etc) (h : update old new = some now)
    (hold : ∀ l ∈ old.passwd, l.name ∈ old.shadow.map Secret.name) :
    (∀ a ∈ old.passwd.map Line.name, a ∈ new.passwd.map Line.name →
      (KeepsPassword old now a ↔ HasLine old new a)) ∧
    ∀ a ∈ now.passwd.map Line.name, a ∉ old.passwd.map Line.name →
      (Closed now a ↔ ∀ l ∈ new.passwd, l.name = a → shut l.password) := by
  have hu := updated_of_update h
  constructor
  · intro a ha ha'
    have hmem := fun l hl => mem_shadow_of_both (l := l) hu hold ha ha' hl
    constructor
    · rintro ⟨⟨l, hl, hla⟩, -⟩
      exact ((hmem l hla).1 hl).1
    · intro hline
      refine ⟨?_, fun l hl hla => ((hmem l hla).1 hl).2⟩
      obtain ⟨p, hp, hpn⟩ := mem_map.1 ha
      obtain ⟨s, hs, hsn⟩ := mem_map.1 (hold p hp)
      obtain ⟨l, hl⟩ := last?_isSome Secret.name hs
      rw [hsn, hpn] at hl
      exact ⟨l, (hmem l (key_of_last? hl)).2 ⟨hline, hl⟩, key_of_last? hl⟩
  · intro a _ ha
    constructor
    · rintro hc n hn rfl
      obtain ⟨l, hl, hname, hpw⟩ := image_in_passwd hu hn
      exact hpw ▸ hc.shut l hl hname
    · refine fun hshut => ⟨?_, ?_⟩
      · rintro l hl rfl
        obtain ⟨n, hn, hname, hpw⟩ := passwd_of_image hu hl ha
        exact hpw ▸ hshut n hn hname
      · rintro l hl rfl
        rw [hu.shadow] at hl
        exact locked_of_mem_lock hl ha

namespace Sample

/-- A line of `passwd`. -/
def user (name password : Text) (n : ℕ) : Passwd := ⟨name, password, n, n, []⟩

/-- A device with a user of its own. -/
def device : Etc where
  passwd := [user "root" "x" 0, user "daemon" "*" 1,
    user "pi" "x" 1000]
  group := [⟨"root", "x", 0, []⟩, ⟨"pi", "x", 1000, []⟩]
  shadow := [⟨"root", "$6$mine", []⟩, ⟨"daemon", "*", []⟩,
    ⟨"pi", "$6$pi", []⟩]
  gshadow := none

/-- An image with the well-known user, and accounts without a password in `passwd`, as OpenWrt's. -/
def image : Etc where
  passwd := [user "root" "x" 0, user "daemon" "*" 1,
    user "ftp" "*" 55, user "ubuntu" "x" 1000]
  group := [⟨"root", "x", 0, []⟩, ⟨"ubuntu", "x", 1000, []⟩]
  shadow := [⟨"root", [], []⟩, ⟨"daemon", "*", []⟩,
    ⟨"ubuntu", "$6$ubuntu", []⟩]
  gshadow := none

/-- An image that has no line for `daemon` in `shadow`, and a guest without a password. -/
def bareImage : Etc where
  passwd := [user "root" "x" 0, user "daemon" "x" 1,
    user "guest" [] 1001]
  group := image.group
  shadow := [⟨"root", [], []⟩]
  gshadow := none

/-- What an update of the device leaves. -/
def updated (new : Etc) : Etc := (update device new).getD ⟨[], [], [], none⟩

end Sample

/-- `root` and `daemon` have their old lines, and `ftp` and `ubuntu` are closed. -/
theorem passwords_after_update :
    (∀ a ∈ ["root".toList, "daemon".toList],
      KeepsPassword Sample.device (Sample.updated Sample.image) a) ∧
    ∀ a ∈ ["ftp".toList, "ubuntu".toList], Closed (Sample.updated Sample.image) a := by
  have h := passwords_are_the_old Sample.device Sample.image (Sample.updated Sample.image)
    (by decide) (by decide)
  have hboth : ∀ a ∈ ["root".toList, "daemon".toList], a ∈ Sample.device.passwd.map Line.name ∧
      a ∈ Sample.image.passwd.map Line.name ∧ HasLine Sample.device Sample.image a := by decide
  have hother : ∀ a ∈ ["ftp".toList, "ubuntu".toList],
      a ∈ (Sample.updated Sample.image).passwd.map Line.name ∧
      a ∉ Sample.device.passwd.map Line.name ∧
      ∀ l ∈ Sample.image.passwd, l.name = a → shut l.password := by decide
  refine ⟨fun a ha => ?_, fun a ha => ?_⟩
  · obtain ⟨hold, hnew, hline⟩ := hboth a ha
    exact (h.1 a hold hnew).2 hline
  · obtain ⟨hnow, hold, hshut⟩ := hother a ha
    exact (h.2 a hnow hold).2 hshut

/-- An image that does not keep to shadow passwords: `daemon` has no line afterwards, and the
guest is still open. -/
theorem password_line_lost :
    ∃ old new now, update old new = some now ∧
      (∀ l ∈ old.passwd, l.name ∈ old.shadow.map Secret.name) ∧
      (∃ a ∈ old.passwd.map Line.name, a ∈ new.passwd.map Line.name ∧ ¬ KeepsPassword old now a) ∧
      ∃ a ∈ now.passwd.map Line.name, a ∉ old.passwd.map Line.name ∧ ¬ Closed now a := by
  refine ⟨Sample.device, Sample.bareImage, Sample.updated Sample.bareImage, by decide, by decide,
    ⟨"daemon", by decide, by decide, fun h => ?_⟩,
    "guest", by decide, by decide, fun h => ?_⟩
  · exact absurd h.some (by decide)
  · exact absurd h.shut (by decide)

end Mu300.Accounts
