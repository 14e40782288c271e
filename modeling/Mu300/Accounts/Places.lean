import Mu300.Accounts.Model

/-!
# The numbers of the plan

`carry_accounts_plan` goes through the accounts of the old system one by one and writes several
files as it goes. All of them are about the same thing: the accounts that the new system does not
have, each with the number it got, in order.
-/

namespace Mu300.Accounts

open Shell Awk List

variable {α : Type} {fix : Line α → Line α} {names : List Text} {taken : List ℕ}
  {old new : List (Line α)} {ps : List (Line α × ℕ)} {p : Places α}

theorem not_mem_of_free {used : List ℕ} {sys : Bool} {m : ℕ} (h : free used sys = some m) :
    m ∉ used := by
  unfold free at h
  split at h
  all_goals
    have hm := find?_some h
    exact of_decide_eq_true hm

/-- The entry of `idmap` for an account that got a number. -/
def moved (q : Line α × ℕ) : Option (ℕ × ℕ) :=
  if q.1.number ≠ q.2 then some (q.1.number, q.2) else none

/-- The entry of `acct.renum`, for a user. -/
def renumbered (q : Line α × ℕ) : Option (Text × ℕ) :=
  if isLocal q.1.number then some (q.1.name, q.2) else none

/-- The line to add, for a system account. -/
def added (fix : Line α → Line α) (q : Line α × ℕ) : Option (Line α) :=
  if isLocal q.1.number then none else some (fix { q.1 with number := q.2 })

/-- `p` is what the plan is after the lines `old`, of which `ps` got numbers. -/
structure Placed (fix : Line α → Line α) (names : List Text) (taken : List ℕ) (old : List (Line α))
    (ps : List (Line α × ℕ)) (p : Places α) : Prop where
  used : p.used = (ps.map Prod.snd).reverse ++ taken
  map : p.map = ps.filterMap moved
  renum : p.renum = ps.filterMap renumbered
  add : p.add = ps.filterMap (added fix)
  /-- only accounts that the new system does not have -/
  other : ∀ q ∈ ps, q.1 ∈ old ∧ q.1.name ∉ names
  /-- all of them, where none was left without a number -/
  all : p.unplaced = [] → ps.map Prod.fst = old.filter fun l => l.name ∉ names

namespace Placed

section

variable (h : Placed fix names taken old ps p) {l : Line α}

include h

theorem skip (hl : l.name ∈ names) :
    Placed fix names taken (old ++ [l]) ps p where
  __ := h
  other := fun q hq => (h.other q hq).imp_left (mem_append_left _)
  all := fun hu => by simp [h.all hu, hl]

theorem fail (l : Line α) :
    Placed fix names taken (old ++ [l]) ps { p with unplaced := p.unplaced ++ [l.name] } where
  __ := h
  other := fun q hq => (h.other q hq).imp_left (mem_append_left _)
  all := fun hu => by simp at hu

theorem place (hl : l.name ∉ names) (m : ℕ) :
    Placed fix names taken (old ++ [l]) (ps ++ [(l, m)])
      (Accounts.place fix l m { p with map := p.map ++ (moved (l, m)).toList }) where
  used := by simp [Accounts.place, h.used]
  map := by rcases hm : moved (l, m) <;> simp [Accounts.place, h.map, hm]
  renum := by by_cases hl : isLocal l.number <;> simp [Accounts.place, h.renum, renumbered, hl]
  add := by by_cases hl : isLocal l.number <;> simp [Accounts.place, h.add, added, hl]
  other := by
    intro q hq
    rcases mem_append.1 hq with hq | hq
    · exact (h.other q hq).imp_left (mem_append_left _)
    · obtain rfl := mem_singleton.1 hq
      exact ⟨mem_append_right _ (mem_singleton_self l), hl⟩
  all := fun hu => by simp [h.all hu, hl]

theorem one (l : Line α) :
    ∃ ps', Placed fix names taken (old ++ [l]) ps' (Accounts.one names fix p l) := by
  unfold Accounts.one
  split
  · next hl => exact ⟨ps, h.skip hl⟩
  · next hl =>
    split
    · next hu =>
      rcases hf : free p.used (!isLocal l.number) with _ | m
      · exact ⟨ps, h.fail l⟩
      · -- the free number is another one, as its own is taken
        have hm : l.number ≠ m := fun he => not_mem_of_free hf (he ▸ hu)
        have := h.place hl m
        rw [show moved (l, m) = some (l.number, m) from if_pos hm] at this
        exact ⟨_, this⟩
    · have := h.place hl l.number
      rw [show moved (l, l.number) = none from if_neg (not_not_intro rfl)] at this
      simp only [Option.toList_none, append_nil] at this
      exact ⟨_, this⟩

end

end Placed

theorem places_placed (fix : Line α → Line α) (old new : List (Line α)) :
    ∃ ps, Placed fix (new.map Line.name) (new.map Line.number) old ps (places fix old new) := by
  -- the lines already done grow at the end
  induction old using reverseRecOn with
  | nil => exact ⟨[], rfl, rfl, rfl, rfl, by simp, fun _ => rfl⟩
  | append_singleton old l ih =>
    obtain ⟨ps, h⟩ := ih
    rw [places, foldl_append]
    exact h.one l

theorem Placed.mem_add (h : Placed fix names taken old ps p) {l : Line α} (hl : l ∈ p.add) :
    ∃ q ∈ ps, ¬ isLocal q.1.number ∧ l = fix { q.1 with number := q.2 } := by
  rw [h.add, mem_filterMap] at hl
  obtain ⟨q, hq, hl⟩ := hl
  unfold added at hl
  split at hl
  · exact nomatch hl
  · next hlocal => exact ⟨q, hq, hlocal, (Option.some.inj hl).symm⟩

theorem used_one (l : Line α) :
    (one names fix p l).used = p.used ∨ ∃ m ∉ p.used, (one names fix p l).used = m :: p.used := by
  unfold one
  split
  · exact .inl rfl
  · split
    · rcases hf : free p.used (!isLocal l.number) with _ | m
      · exact .inl rfl
      · exact .inr ⟨m, not_mem_of_free hf, rfl⟩
    · next hu => exact .inr ⟨l.number, hu, rfl⟩

/-- **No number is given twice**, to whatever accounts: those that the plan gives out are all
different, and none of them is a number of the new system. -/
theorem places_apart (fix : Line α → Line α) (old new : List (Line α)) :
    ∃ ps, Placed fix (new.map Line.name) (new.map Line.number) old ps (places fix old new) ∧
      (ps.map Prod.snd).Nodup ∧ ∀ q ∈ ps, q.2 ∉ new.map Line.number := by
  have hused : ∃ ns, (places fix old new).used = ns ++ new.map Line.number ∧ ns.Nodup ∧
      ∀ n ∈ ns, n ∉ new.map Line.number := by
    induction old using reverseRecOn with
    | nil => exact ⟨[], rfl, nodup_nil, by simp⟩
    | append_singleton old l ih =>
      obtain ⟨ns, hns, hnodup, hnew⟩ := ih
      rw [places, foldl_append]
      rcases used_one (p := places fix old new) l with h | ⟨m, hm, h⟩
      · exact ⟨ns, h.trans hns, hnodup, hnew⟩
      · rw [hns, mem_append, not_or] at hm
        exact ⟨m :: ns, h.trans (by rw [hns]; rfl), nodup_cons.2 ⟨hm.1, hnodup⟩,
          forall_mem_cons.2 ⟨hm.2, hnew⟩⟩
  obtain ⟨ps, hps⟩ := places_placed fix old new
  obtain ⟨ns, hns, hnodup, hnew⟩ := hused
  obtain rfl := append_cancel_right (hps.used.symm.trans hns)
  exact ⟨ps, hps, nodup_reverse.1 hnodup, fun q hq => hnew _ (mem_reverse.2 (mem_map_of_mem hq))⟩

/-! ## The whole update -/

/-- What is there after an update. -/
structure Updated (old new now : Etc) : Prop where
  passwd : now.passwd =
    ((mergeAccounts old new).passwd ++ (carryAccountsPlan old new).passwd.add).map
    (renumber (regroup ((carryAccountsPlan old new).idmap .group))
      (carryAccountsPlan old new).passwd.renum)
  group : now.group = ((mergeAccounts old new).group ++ (carryAccountsPlan old new).group.add).map
    (renumber id (carryAccountsPlan old new).group.renum)
  shadow : now.shadow = lock old.passwd
    ((mergeAccounts old new).shadow ++ secretsOf (carryAccountsPlan old new).passwd.add old.shadow)
  users : asPlanned ((carryAccountsPlan old new).idmap .user) old.passwd now.passwd
  groups : asPlanned ((carryAccountsPlan old new).idmap .group) old.group now.group

theorem updated_of_update {old new now : Etc} (h : update old new = some now) :
    Updated old new now := by
  simp only [update, carryAccounts, Option.ite_none_right_eq_some, Option.some.injEq] at h
  obtain ⟨⟨hu, hg⟩, rfl⟩ := h
  exact ⟨rfl, rfl, rfl, hu, hg⟩

theorem field_renumber {β : Type} (field : Line α → β) {renum : List (Text × ℕ)}
    (h : ∀ (l : Line α) n, field (fix { l with number := n }) = field l) (l : Line α) :
    field (renumber fix renum l) = field l := by
  unfold renumber
  rcases last? Prod.fst l.name renum with _ | r
  · rfl
  · exact h l r.2

end Mu300.Accounts
