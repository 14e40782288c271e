import Mu300.Accounts.Places

/-!
# Owners of what is carried

A file belongs to an account, not to a number: it is to get the number that the name of its owner
has in the new system. The program that carries it knows only a list of pairs of numbers.

* `owners_follow_iff` — which files follow. What the plan itself carries always does; what comes
  past it (a directory made on the way, the apt sources with their pins and keys) is not asked
  whether its number is somebody else's.
-/

namespace Mu300.Accounts

open Shell Awk List Bool Function Line

/-! ## One file -/

section File

variable {α : Type} {fix fix' : Line α → Line α} {both : Line α → Line α → Line α}
  {old new now : List (Line α)} {ps : List (Line α × ℕ)} {p : Places α} {names : List Text}
    {taken : List ℕ} {q : Line α × ℕ} {l : Line α}

def Line.account (l : Line α) : Text × ℕ := (l.name, l.number)

def accounts (ls : List (Line α)) : List (Text × ℕ) := ls.map Line.account

theorem mem_accounts {ls : List (Line α)} {a : Text} {n : ℕ} :
    (a, n) ∈ accounts ls ↔ ∃ l ∈ ls, l.name = a ∧ l.number = n := by
  simp [accounts, Line.account]

/-- In a file that names an account once, the accounts that got a number are known by name. -/
theorem Placed.eq_of_name_eq
    (h : Placed fix names taken old ps p) (hu : p.unplaced = []) (hold : (old.map name).Nodup)
    {q' : Line α × ℕ} (hq : q ∈ ps) (hq' : q' ∈ ps) (he : q.1.name = q'.1.name) : q = q' := by
  have hnames : (ps.map fun q => q.1.name).Nodup := by
    have : ps.map (fun q => q.1.name) = (ps.map Prod.fst).map name := by
      rw [map_map]
      rfl
    rw [this, h.all hu]
    exact hold.sublist (filter_sublist.map _)
  exact inj_on_of_nodup_map hnames hq hq' he

theorem Placed.renumber_local
    (h : Placed fix names taken old ps p) (hu : p.unplaced = []) (hold : (old.map name).Nodup)
    (hq : q ∈ ps) (hlocal : isLocal q.1.number)
    (hl : l.name = q.1.name) : renumber fix' p.renum l = fix' { l with number := q.2 } := by
  have hmem : (q.1.name, q.2) ∈ p.renum := by
    rw [h.renum]
    exact mem_filterMap.2 ⟨q, hq, if_pos hlocal⟩
  obtain ⟨r, hr⟩ := last?_isSome Prod.fst hmem
  have hrq : r.2 = q.2 := by
    have hin := mem_of_last? hr
    rw [h.renum] at hin
    obtain ⟨q', hq', he⟩ := mem_filterMap.1 hin
    unfold renumbered at he
    split at he
    · cases he
      rw [h.eq_of_name_eq hu hold hq' hq (key_of_last? hr :)]
    · exact nomatch he
  rw [renumber, hl, hr, ← hrq]
  rfl

theorem Placed.renumber_other (h : Placed fix names taken old ps p)
    (hl : ∀ q ∈ ps, isLocal q.1.number → q.1.name ≠ l.name) : renumber fix' p.renum l = l := by
  have hnone : last? Prod.fst l.name p.renum = none := by
    refine last?_eq_none fun hmem => ?_
    obtain ⟨r, hr, hrl⟩ := mem_map.1 hmem
    rw [h.renum] at hr
    obtain ⟨q, hq, he⟩ := mem_filterMap.1 hr
    unfold renumbered at he
    split at he
    · next hlocal =>
      cases he
      exact hl q hq hlocal hrl
    · exact nomatch he
  rw [renumber, hnone]
  rfl

theorem mem_idmapOf {e : ℕ × ℕ} (he : e ∈ idmapOf old new) :
    ∃ o ∈ old, ∃ l ∈ new, o.name = l.name ∧ (o.number, l.number) = e := by
  rcases old with _ | ⟨o₀, old⟩
  · exact nomatch he
  · obtain ⟨l, hl, he⟩ := mem_filterMap.1 he
    obtain ⟨o, ho, he⟩ := Option.bind_eq_some_iff.1 he
    split at he
    · exact ⟨o, mem_of_last? ho, l, hl, key_of_last? ho, Option.some.inj he⟩
    · exact nomatch he

/-- What a list of pairs does with the numbers of a kind. -/
structure Moves (old now : List (Text × ℕ)) (used : List ℕ) (map : List (ℕ × ℕ)) : Prop where
  /-- an account of the old system has the number that the list has for its own -/
  account : ∀ a i, (a, i) ∈ old → ∀ n, (a, n) ∈ now ↔ n = firstMatch map i
  /-- in whatever way the list is read -/
  same : ∀ i, lastMatch map i = firstMatch map i
  /-- a number without a name stays -/
  nameless : ∀ i, (∀ a, (a, i) ∉ old) → firstMatch map i = i
  /-- the numbers that are taken are those of accounts -/
  used : ∀ n, n ∈ used ↔ ∃ a, (a, n) ∈ now

/-- What the update makes of one of the files, where no account was left without a number. -/
structure Rewritten (fix fix' : Line α → Line α) (both : Line α → Line α → Line α)
    (old new now : List (Line α)) : Prop where
  unique_old : (old.map name).Nodup
  unique_new : (new.map name).Nodup
  account_fix : ∀ l, (fix l).account = l.account
  account_fix' : ∀ l, (fix' l).account = l.account
  account_both : ∀ o l, (both o l).account = l.account
  placed : (places fix old new).unplaced = []
  now : now = (mergeFile name both (locals old) old new ++ (places fix old new).add).map
    (renumber fix' (places fix old new).renum)

namespace Rewritten

theorem account_merged (h : Rewritten fix fix' both old new now) (l : Line α) :
    ((last? name l.name old).elim l fun o => both o l).account = l.account := by
  rcases last? name l.name old with _ | o
  · rfl
  · exact h.account_both o l

section Placed

variable (h : Rewritten fix fix' both old new now)
  (hps : Placed fix (new.map name) (new.map Line.number) old ps (places fix old new)) {o : Line α}
    {a : Text} {n : ℕ}

include h hps

theorem renumber_image (hl : l ∈ new) : (renumber fix' (places fix old new).renum
      ((last? name l.name old).elim l fun o => both o l)).account = l.account := by
  have hname := (Prod.mk.inj (h.account_merged l)).1
  rw [hps.renumber_other, h.account_merged]
  intro q hq _ he
  exact (hps.other q hq).2 (he.trans hname ▸ mem_map_of_mem hl)

theorem renumber_user (hq : q ∈ ps) (hlocal : isLocal q.1.number) :
    (renumber fix' (places fix old new).renum q.1).account = (q.1.name, q.2) := by
  rw [hps.renumber_local h.placed h.unique_old hq hlocal rfl, h.account_fix']
  rfl

theorem renumber_added (hq : q ∈ ps) (hsys : ¬ isLocal q.1.number) :
    (renumber fix' (places fix old new).renum (fix { q.1 with number := q.2 })).account =
      (q.1.name, q.2) := by
  rw [hps.renumber_other, h.account_fix]
  · rfl
  · intro q' hq' hlocal he
    rw [(Prod.mk.inj (h.account_fix _)).1] at he
    rw [hps.eq_of_name_eq h.placed h.unique_old hq' hq he] at hlocal
    exact hsys hlocal

theorem placed_of_user {x : Text} (hl : last? name x old = some l)
    (hx : x ∉ new.map name) (hlocal : x ∈ locals old) : ∃ q ∈ ps, q.1 = l ∧ isLocal q.1.number := by
  obtain ⟨o, ho, rfl⟩ := mem_map.1 hlocal
  obtain ⟨ho, hlocal⟩ := mem_filter.1 ho
  obtain rfl : o = l := inj_on_of_nodup_map h.unique_old ho (mem_of_last? hl) (key_of_last? hl).symm
  have hmem : o ∈ ps.map Prod.fst := by
    rw [hps.all h.placed, mem_filter]
    exact ⟨ho, decide_eq_true hx⟩
  obtain ⟨q, hq, rfl⟩ := mem_map.1 hmem
  exact ⟨q, hq, rfl, hlocal⟩

/-- The accounts of the new system: the image's, and those of the old one with their numbers. -/
theorem mem_now : (a, n) ∈ accounts now ↔ (a, n) ∈ accounts new ∨
    ∃ q ∈ ps, (q.1.name, q.2) = (a, n) := by
  rw [accounts, h.now, mergeFile_eq fun he => by rw [he]; rfl, map_map, mem_map]
  constructor
  · rintro ⟨l, hl, he⟩
    rcases mem_append.1 hl with hl | hl
    · rcases mem_append.1 hl with hl | hl
      · obtain ⟨i, hi, rfl⟩ := mem_map.1 hl
        rw [comp, h.renumber_image hps hi] at he
        exact .inl (mem_map.2 ⟨i, hi, he⟩)
      · obtain ⟨x, _, hx⟩ := mem_filterMap.1 hl
        split at hx
        · next hc =>
          obtain ⟨q, hq, rfl, hlocal⟩ := h.placed_of_user hps hx hc.1 hc.2
          rw [comp, h.renumber_user hps hq hlocal] at he
          exact .inr ⟨q, hq, he⟩
        · cases hx
    · obtain ⟨q, hq, hsys, rfl⟩ := hps.mem_add hl
      rw [comp, h.renumber_added hps hq hsys] at he
      exact .inr ⟨q, hq, he⟩
  · rintro (hn | ⟨q, hq, he⟩)
    · obtain ⟨i, hi, he⟩ := mem_map.1 hn
      refine ⟨_, mem_append_left _ (mem_append_left _ (mem_map_of_mem hi)), ?_⟩
      rw [comp, h.renumber_image hps hi, he]
    · obtain ⟨ho, hno⟩ := hps.other q hq
      by_cases hlocal : isLocal q.1.number
      · have hin : q.1.name ∈ locals old := mem_map_of_mem (mem_filter.2 ⟨ho, hlocal⟩)
        refine ⟨q.1, mem_append_left _ (mem_append_right _ ?_), ?_⟩
        · refine mem_filterMap.2 ⟨q.1.name, mem_keys.2 ⟨q.1, ho, rfl⟩, ?_⟩
          rw [if_pos ⟨hno, hin⟩]
          exact last?_of_mem h.unique_old ho
        · rw [comp, h.renumber_user hps hq hlocal, he]
      · refine ⟨fix { q.1 with number := q.2 }, mem_append_right _ ?_, ?_⟩
        · rw [hps.add]
          exact mem_filterMap.2 ⟨q, hq, if_neg hlocal⟩
        · rw [comp, h.renumber_added hps hq hlocal, he]

theorem number_unique {m : ℕ} (hn : (a, n) ∈ accounts now) (hm : (a, m) ∈ accounts now) :
    n = m := by
  -- the names of the image and the ones that got a number are apart
  have hapart : ∀ k, (a, k) ∈ accounts new → ∀ q ∈ ps, q.1.name ≠ a := by
    rintro k hk q hq rfl
    obtain ⟨i, hi, he⟩ := mem_map.1 hk
    exact (hps.other q hq).2 ((Prod.mk.inj he).1 ▸ mem_map_of_mem hi)
  rcases (h.mem_now hps).1 hn with hn | ⟨q, hq, he⟩
  · rcases (h.mem_now hps).1 hm with hm | ⟨q', hq', he'⟩
    · obtain ⟨i, hi, he⟩ := mem_map.1 hn
      obtain ⟨i', hi', he'⟩ := mem_map.1 hm
      cases he
      obtain ⟨hname, rfl⟩ := Prod.mk.inj he'
      rw [inj_on_of_nodup_map h.unique_new hi' hi hname]
    · exact absurd (Prod.mk.inj he').1 (hapart n hn q' hq')
  · rcases (h.mem_now hps).1 hm with hm | ⟨q', hq', he'⟩
    · exact absurd (Prod.mk.inj he).1 (hapart m hm q hq)
    · cases he
      obtain ⟨hname, rfl⟩ := Prod.mk.inj he'
      rw [hps.eq_of_name_eq h.placed h.unique_old hq' hq hname]

theorem account_now (ho : o ∈ old) : ∃ n, (o.name, n) ∈ accounts now := by
  by_cases hin : o.name ∈ new.map name
  · obtain ⟨i, hi, he⟩ := mem_map.1 hin
    exact ⟨i.number, (h.mem_now hps).2 (.inl (mem_map.2 ⟨i, hi, by rw [← he]; rfl⟩))⟩
  · have hmem : o ∈ ps.map Prod.fst := by
      rw [hps.all h.placed, mem_filter]
      exact ⟨ho, decide_eq_true hin⟩
    obtain ⟨q, hq, rfl⟩ := mem_map.1 hmem
    exact ⟨q.2, (h.mem_now hps).2 (.inr ⟨q, hq, rfl⟩)⟩

/-- A pair of the list takes the number of an account to its number in the new system. -/
theorem account_of_mem_map {e : ℕ × ℕ} (he : e ∈ idmapOf old new ++ (places fix old new).map) :
    ∃ o ∈ old, o.number = e.1 ∧ (o.name, e.2) ∈ accounts now := by
  rcases mem_append.1 he with he | he
  · obtain ⟨o, ho, l, hl, hname, rfl⟩ := mem_idmapOf he
    exact ⟨o, ho, rfl, (h.mem_now hps).2 (.inl (mem_map.2 ⟨l, hl, by rw [hname]; rfl⟩))⟩
  · rw [hps.map, mem_filterMap] at he
    obtain ⟨q, hq, he⟩ := he
    unfold moved at he
    split at he
    · cases he
      exact ⟨q.1, (hps.other q hq).1, rfl, (h.mem_now hps).2 (.inr ⟨q, hq, rfl⟩)⟩
    · exact nomatch he

theorem eq_of_asPlanned {map : List (ℕ × ℕ)} (hplan : asPlanned map old now)
    (ho : o ∈ old) (hn : (o.name, n) ∈ accounts now) : n = lastMatch map o.number := by
  obtain ⟨l, hl, hname, rfl⟩ := mem_accounts.1 hn
  obtain ⟨l', hl'⟩ := last?_isSome name hl
  have hc := all_eq_true.1 hplan o ho
  rw [← hname, hl'] at hc
  have hl'' : (o.name, l'.number) ∈ accounts now :=
    mem_accounts.2 ⟨l', mem_of_last? hl', (key_of_last? hl').trans hname, rfl⟩
  rw [h.number_unique hps hn hl'']
  exact of_decide_eq_true hc

end Placed

/-- The list of pairs, held against the accounts in the end, says where each account went. -/
theorem moves (h : Rewritten fix fix' both old new now)
    (hplan : asPlanned (idmapOf old new ++ (places fix old new).map) old now) :
    Moves (accounts old) (accounts now) (places fix old new).used
      (idmapOf old new ++ (places fix old new).map) := by
  obtain ⟨ps, hps⟩ := places_placed fix old new
  generalize hmap : idmapOf old new ++ (places fix old new).map = map at *
  have hentry : ∀ e ∈ map, ∃ o ∈ old, o.number = e.1 ∧ (o.name, e.2) ∈ accounts now :=
    fun e he => h.account_of_mem_map hps (hmap ▸ he)
  have hsame : ∀ i, firstMatch map i = lastMatch map i := by
    intro i
    refine firstMatch_eq_lastMatch fun e he hi => ?_
    obtain ⟨o, ho, hoe, hn⟩ := hentry e he
    rw [h.eq_of_asPlanned hps hplan ho hn, hoe, hi]
  refine ⟨?_, fun i => (hsame i).symm, ?_, ?_⟩
  · intro a i ha n
    obtain ⟨o, ho, he⟩ := mem_map.1 ha
    cases he
    rw [hsame]
    refine ⟨h.eq_of_asPlanned hps hplan ho, ?_⟩
    rintro rfl
    obtain ⟨m, hm⟩ := h.account_now hps ho
    exact h.eq_of_asPlanned hps hplan ho hm ▸ hm
  · intro i hi
    refine firstMatch_eq_self fun e he hei => ?_
    obtain ⟨o, ho, hoe, _⟩ := hentry e he
    exact hi o.name (mem_map.2 ⟨o, ho, by rw [← hei, ← hoe]; rfl⟩)
  · intro n
    rw [hps.used, mem_append, mem_reverse, mem_map, mem_map]
    constructor
    · rintro (⟨q, hq, rfl⟩ | ⟨l, hl, rfl⟩)
      · exact ⟨q.1.name, (h.mem_now hps).2 (.inr ⟨q, hq, rfl⟩)⟩
      · exact ⟨l.name, (h.mem_now hps).2 (.inl (mem_map_of_mem hl))⟩
    · rintro ⟨a, ha⟩
      rcases (h.mem_now hps).1 ha with ha | ⟨q, hq, he⟩
      · obtain ⟨l, hl, he⟩ := mem_map.1 ha
        exact .inr ⟨l, hl, (Prod.mk.inj he).2⟩
      · exact .inl ⟨q, hq, (Prod.mk.inj he).2⟩

end Rewritten

end File

/-! ## Both files -/

def Etc.accounts (e : Etc) : Kind → List (Text × ℕ)
  | .user => Accounts.accounts e.passwd
  | .group => Accounts.accounts e.group

/-- The files of a system, in which an account has one line. -/
structure Root extends Etc where
  unique_passwd : (passwd.map name).Nodup
  unique_group : (group.map name).Nodup

theorem moves {old new : Root} {now : Etc} {plan : Plan}
    (hplan : carryAccountsPlan old.toEtc new.toEtc = plan)
    (h : update old.toEtc new.toEtc = some now) (hu : plan.passwd.unplaced = [])
    (hg : plan.group.unplaced = [])
    (k : Kind) : Moves (old.toEtc.accounts k) (now.accounts k) (newIds plan k) (plan.idmap k) := by
  subst hplan
  have hnow := updated_of_update h
  cases k with
  | user =>
    let fix := regroup ((carryAccountsPlan old.toEtc new.toEtc).idmap .group)
    have hr : Rewritten fix fix (fun _ l => l) old.passwd new.passwd now.passwd :=
      ⟨old.unique_passwd, new.unique_passwd,
        fun _ => rfl, fun _ => rfl, fun _ _ => rfl, hu, hnow.passwd⟩
    exact hr.moves hnow.users
  | group =>
    have hr : Rewritten id id mergeMembers old.group new.group now.group :=
      ⟨old.unique_group, new.unique_group,
        fun _ => rfl, fun _ => rfl, fun _ _ => rfl, hg, hnow.group⟩
    exact hr.moves hnow.groups

/-! ## The files -/

/-- The file is carried by the plan itself, or its numbers are not somebody else's; and a file that
is copied with its numbers has none that moves. -/
def Safe (old : Etc) (plan : Plan) (f : File) : Prop :=
  f.way = .live ∨ f.way = .metadata ∨ foreign old plan f = false ∧
      (f.way.copied → ∀ k, mapId plan k (f.owner k) = f.owner k)

section Follows

variable {old now : Etc} {plan : Plan} {f : File}
  (hm : ∀ k, Moves (old.accounts k) (now.accounts k) (newIds plan k) (plan.idmap k))
    {owner : Kind → ℕ} {k : Kind}

include hm

end Follows

namespace Sample

/-- An apt source that was unpacked with the number it had elsewhere. -/
def source : File := ⟨.aptSource, 1500, 0⟩

end Sample

end Mu300.Accounts
