import Mu300.Sms.Group

/-!
# What the groups keep apart

Parts of one message come under one key, and a part number of a key has one text. awk compares the
texts for that, and two that look like numbers it compares as numbers: a part with the text `01` is
then taken for the part that its group has, with the text `1`.

* `Mistaken` — such a part, offered to such a group, where parts are grouped by their exact texts.
* `grouped_soundly_iff` — the groups are sound exactly if there is none.
-/

namespace Mu300.Sms

open Shell List Option

/-- How awk compares two fields: as numbers if both look like numbers. How it reads them is left
open. -/
def awkSame {ν : Type} [DecidableEq ν] (num : Text → Option ν) (a b : Text) : Bool :=
  match num a, num b with
  | some x, some y => x = y
  | _, _ => a = b

theorem awkSame_self {ν : Type} [DecidableEq ν] (num : Text → Option ν) (a : Text) :
    awkSame num a a := by
  unfold awkSame
  split <;> simp_all

/-- The texts are the same. -/
def sameText (a b : Text) : Bool := a = b

variable {same : Text → Text → Bool} {rs : List Record} {r : Record} {b : Text} {gs : List Group}

/-! ## The part that is mistaken -/

/-- A part is offered to a group of its message and its time that has another text under its
number, which is taken for its own; no group before that one has its text or has room for it. -/
def Mistaken (same : Text → Text → Bool) (gs : List Group) (b : Text) (r : Record) : Prop :=
  ∃ (j : ℕ) (g : Group) (t : Text), gs[j]? = some g ∧ g.base = b ∧ tsNear r.ts g.first ∧
    g.txt.lookup r.part = some t ∧ t ≠ r.text ∧ same t r.text ∧
    ∀ i < j, ∀ g' : Group, gs[i]? = some g' → g'.base = b → ¬ g'.accepts sameText r

/-- No part is mistaken where those before it are grouped by their exact texts. -/
def Told (same : Text → Text → Bool) (rs : List Record) : Prop :=
  ∀ i r b, rs[i]? = some r → r.base = some b →
    ¬ Mistaken same (grouping sameText (rs.take i)).groups b r

theorem Group.accepts_of_sameText (hself : ∀ a, same a a) {g : Group} (h : g.accepts sameText r) :
    g.accepts same r := by
  unfold Group.accepts at h ⊢
  cases hl : g.txt.lookup r.part <;> grind [sameText]

theorem Group.mistakes {g : Group} (h : g.accepts same r) (h' : ¬ g.accepts sameText r) :
    ∃ t, tsNear r.ts g.first ∧ g.txt.lookup r.part = some t ∧ t ≠ r.text ∧ same t r.text := by
  unfold Group.accepts at h h'
  cases hl : g.txt.lookup r.part <;> grind [sameText]

/-- A part that is not mistaken goes where its exact text takes it. -/
theorem place_congr (hself : ∀ a, same a a) (h : ¬ Mistaken same gs b r) :
    place same b r gs = place sameText b r gs := by
  induction gs with
  | nil => rfl
  | cons g gs ih =>
    rw [place, place]
    by_cases hexact : g.base = b ∧ g.accepts sameText r
    · rw [if_pos hexact, if_pos ⟨hexact.1, Group.accepts_of_sameText hself hexact.2⟩]
    · have hnot : ¬ (g.base = b ∧ g.accepts same r) := by
        rintro ⟨hb, hacc⟩
        obtain ⟨t, ht⟩ := Group.mistakes hacc fun hs => hexact ⟨hb, hs⟩
        exact h ⟨0, g, t, rfl, hb, ht.1, ht.2.1, ht.2.2.1, ht.2.2.2, by rintro i ⟨⟩⟩
      have hrest : ¬ Mistaken same gs b r := by
        rintro ⟨j, g', t, hj, hb, hnear, hlook, hne, hsame, hbefore⟩
        refine h ⟨j + 1, g', t, hj, hb, hnear, hlook, hne, hsame, fun i hi g'' hg hb'' hacc => ?_⟩
        cases i with
        | zero =>
          cases hg
          exact hexact ⟨hb'', hacc⟩
        | succ i => exact hbefore i (Nat.lt_of_succ_lt_succ hi) g'' hg hb'' hacc
      rw [if_neg hexact, if_neg hnot, ih hrest]

theorem grouping_concat (same : Text → Text → Bool) (rs : List Record) (r : Record) :
    grouping same (rs ++ [r]) = (grouping same rs).add same r := by
  rw [grouping, foldl_append]
  rfl

/-- Up to the first part that is mistaken the texts decide. -/
theorem grouping_take (hself : ∀ a, same a a) {n : ℕ} (h : ∀ i < n, ∀ r b, rs[i]? = some r →
      r.base = some b → ¬ Mistaken same (grouping sameText (rs.take i)).groups b r) :
    grouping same (rs.take n) = grouping sameText (rs.take n) := by
  induction n with
  | zero => rfl
  | succ n ih =>
    have hn := ih fun i hi => h i (Nat.lt_succ_of_lt hi)
    rw [take_add_one]
    cases hr : rs[n]? with
    | none => rw [toList_none, append_nil, hn]
    | some r =>
      rw [toList_some, grouping_concat, grouping_concat, hn, Grouping.add, Grouping.add]
      cases hb : r.base with
      | none => rfl
      | some b => simp only [place_congr hself (h n (Nat.lt_succ_self n) r b hr hb)]

theorem Told.grouping_eq (hself : ∀ a, same a a) (h : Told same rs) :
    grouping same rs = grouping sameText rs := by
  have htake := grouping_take (n := rs.length) hself fun i _ => h i
  rwa [take_length] at htake

/-! ## Groups by exact texts -/

/-- What holds of the groups while records are placed. -/
structure Grouping.Kept (G : Grouping) : Prop where
  placed : ∀ p ∈ G.placed, ∀ j, p.2 = some j → ∃ g, G.groups[j]? = some g ∧
    g.txt.lookup p.1.part = some p.1.text ∧ tsNear p.1.ts g.first
  first : ∀ j g, G.groups[j]? = some g →
    (G.placed.find? (·.2 = some j)).map (·.1.ts) = some g.first

theorem Grouping.Kept.add {G : Grouping} (h : G.Kept) (r : Record) : (G.add sameText r).Kept := by
  have hplaced := h.placed
  have hfirst := h.first
  rw [Grouping.add]
  rcases hbase : r.base with _ | b
  · exact ⟨by grind, by grind⟩
  rcases place_cases sameText b r G.groups with ⟨j, g, hj, rfl, hacc, heq⟩ | heq
  · rw [Group.accepts, Bool.and_eq_true] at hacc
    obtain ⟨hnear, htext⟩ := hacc
    -- an older text of the part is the same one
    have hsame : ∀ t, g.txt.lookup r.part = some t → t = r.text := by
      intro t ht
      simpa [ht, sameText] using htext
    exact ⟨by grind, by grind⟩
  · simp only [heq]
    refine ⟨?_, by grind⟩
    have : tsNear r.ts r.ts := by simp [tsNear]
    intro p hp j hj
    rcases mem_append.1 hp with hp | hp
    · grind
    · obtain rfl := mem_singleton.1 hp
      cases hj
      exact ⟨_, getElem?_concat_length, by simp, by simpa⟩

theorem grouping_kept (rs : List Record) : (grouping sameText rs).Kept :=
  foldlRecOn rs (Grouping.add sameText) ⟨by simp, by simp⟩ fun _ hG r _ => hG.add r

/-- What the keys of a run say. -/
structure GroupedSoundly (same : Text → Text → Bool) (partials : List Text) (rs : List Record) :
    Prop where
  message : ∀ k r r', (k, r) ∈ keyed same partials rs → (k, r') ∈ keyed same partials rs →
    r.sender = r'.sender ∧ r.ref = r'.ref ∧ r.total = r'.total
  text : ∀ k r r', (k, r) ∈ keyed same partials rs → (k, r') ∈ keyed same partials rs →
    r.part = r'.part → r.text = r'.text
  /-- within ten minutes of the first record of the group -/
  window : ∀ r j, (r, some j) ∈ (grouping same rs).placed →
    ∃ r₀, (grouping same rs).placed.find? (·.2 = some j) = some (r₀, some j) ∧
      (tsSecs r.ts - tsSecs r₀.ts).natAbs ≤ 600
  apart : ∀ (i i' : ℕ) (r r' : Record) (j j' : ℕ),
    (grouping same rs).placed[i]? = some (r, some j) →
    (grouping same rs).placed[i']? = some (r', some j') → j ≠ j' →
      (keyed same partials rs)[i]?.map Prod.fst ≠ (keyed same partials rs)[i']?.map Prod.fst

theorem Grouping.Kept.groupedSoundly (hkept : (grouping same rs).Kept) (partials : List Text)
    (hread : ∀ r ∈ rs, 0 ≤ tsSecs r.ts) : GroupedSoundly same partials rs := by
  refine ⟨?_, ?_, ?_, ?_⟩
  · intro k r r' h h'
    rcases keyed_same h h' with rfl | ⟨-, heq⟩
    · exact ⟨rfl, rfl, rfl⟩
    · exact heq
  · intro k r r' h h' hpart
    rcases keyed_together h h' with rfl | ⟨j, hj, hj'⟩
    · rfl
    · obtain ⟨g, hg, htext, -⟩ := hkept.placed _ hj j rfl
      obtain ⟨g', hg', htext', -⟩ := hkept.placed _ hj' j rfl
      cases hg.symm.trans hg'
      exact some.inj (htext.symm.trans (hpart ▸ htext'))
  · intro r j hr
    obtain ⟨g, hg, -, hnear⟩ := hkept.placed _ hr j rfl
    obtain ⟨⟨r₀, id⟩, hfind, hts⟩ := map_eq_some_iff.1 (hkept.first j g hg)
    obtain rfl : id = some j := by simpa using find?_some hfind
    have hmem : ∀ {p}, p ∈ (grouping same rs).placed → p.1 ∈ rs := fun hp => by
      rw [← map_fst_placed same rs]
      exact mem_map_of_mem hp
    have h₀ := hread _ (hmem (mem_of_find?_eq_some hfind))
    have h₁ := hread _ (hmem hr)
    refine ⟨r₀, hfind, ?_⟩
    simpa [tsNear, ← hts, not_lt.2 h₀, not_lt.2 h₁] using hnear
  · intro i i' r r' j j' hi hi' hne heq
    have hnames := names_nodup (waitingKeys partials) [] (grouping same rs).groups
    have hlt : ∀ {i r j}, (grouping same rs).placed[i]? = some (r, some j) →
        j < (names (waitingKeys partials) [] (grouping same rs).groups).length := fun h => by
      obtain ⟨g, hg, -⟩ := hkept.placed _ (mem_of_getElem? h) _ rfl
      rw [length_names]
      exact (List.getElem?_eq_some_iff.1 hg).1
    simp [keyed, hi, hi', keyOf, List.getElem?_eq_getElem (hlt hi),
      List.getElem?_eq_getElem (hlt hi'), hnames.1.getElem_inj_iff] at heq
    exact hne heq

/-! ## A mistake is seen -/

/-- A text of a group is that of a record placed there. -/
def Grouping.Shown (G : Grouping) : Prop :=
  ∀ j g, G.groups[j]? = some g → ∀ p t, g.txt.lookup p = some t →
    ∃ r, (r, some j) ∈ G.placed ∧ r.part = p ∧ r.text = t

theorem grouping_shown (same : Text → Text → Bool) (rs : List Record) :
    (grouping same rs).Shown := by
  refine foldlRecOn rs (Grouping.add same) (by simp [Grouping.Shown]) fun G hG r _ => ?_
  rw [Grouping.Shown] at hG ⊢
  rw [Grouping.add]
  rcases r.base with _ | b
  · grind
  · rcases place_cases same b r G.groups with ⟨j, g, hj, -, -, heq⟩ | heq
    · grind
    · grind

/-- It is enough that no two records of one part number have texts that are taken for the same. -/
theorem told_of_forall (h : ∀ r ∈ rs, ∀ r' ∈ rs, r'.part = r.part → same r'.text r.text →
    r'.text = r.text) : Told same rs := by
  rintro i r b hr - ⟨j, g, t, hj, -, -, hlook, hne, hsame, -⟩
  obtain ⟨r', hr', hpart, rfl⟩ := grouping_shown sameText _ j g hj _ _ hlook
  have hmem : r' ∈ rs.take i := by
    rw [← map_fst_placed sameText (rs.take i)]
    exact mem_map_of_mem hr'
  exact hne (h r (mem_of_getElem? hr) r' (mem_of_mem_take hmem) hpart hsame)

/-- A record stays where it was placed. -/
theorem mem_placed_of_take {n : ℕ} {p : Record × Option ℕ}
    (h : p ∈ (grouping same (rs.take n)).placed) : p ∈ (grouping same rs).placed := by
  have hsplit : grouping same rs =
      (rs.drop n).foldl (.add same) (grouping same (rs.take n)) := by
    rw [grouping, grouping, ← foldl_append, take_append_drop]
  rw [hsplit]
  refine foldlRecOn (motive := fun G : Grouping => p ∈ G.placed) _ _ h fun G hG r _ => ?_
  rw [Grouping.add]
  split <;> exact mem_append_left _ hG

theorem mem_keyed_of_placed (partials : List Text) {j : ℕ}
    (h : (r, some j) ∈ (grouping same rs).placed) :
    ((names (waitingKeys partials) [] (grouping same rs).groups).getD j [], r) ∈
      keyed same partials rs := by
  obtain ⟨i, hi⟩ := mem_iff_getElem?.1 h
  exact mem_map.2 ⟨((r, some j), i), mem_zipIdx_iff_getElem?.2 hi, rfl⟩

/-- The first part that is mistaken shares its key and its number with another text. -/
theorem GroupedSoundly.told (hself : ∀ a, same a a) {partials : List Text}
    (h : GroupedSoundly same partials rs) : Told same rs := by
  intro i
  induction i using Nat.strong_induction_on with
  | _ i ih =>
  rintro r b hr hb ⟨j, g, t, hj, hgb, hnear, hlook, hne, hsame, hbefore⟩
  rw [← grouping_take hself ih] at hj hbefore
  have hacc : g.accepts same r := by simp [Group.accepts, hnear, hlook, hsame]
  have hle : (place same b r (grouping same (rs.take i)).groups).2 ≤ j :=
    not_lt.1 fun hlt => not_accepts_of_lt_place same hlt hj hgb hacc
  have hplaced : (r, some (place same b r (grouping same (rs.take i)).groups).2) ∈
      (grouping same rs).placed := by
    refine mem_placed_of_take (n := i + 1) ?_
    rw [take_add_one, hr, toList_some, grouping_concat, Grouping.add, hb]
    exact mem_append_right _ mem_cons_self
  rcases place_cases same b r (grouping same (rs.take i)).groups with
    ⟨j', g', hj', hgb', hacc', heq⟩ | heq
  · rw [heq] at hle hplaced
    -- it is not its own text that the group has
    have hnot : ¬ g'.accepts sameText r := by
      rcases Nat.lt_or_eq_of_le hle with hlt | rfl
      · exact hbefore j' hlt g' hj' hgb'
      · cases hj.symm.trans hj'
        simp [Group.accepts, hlook, sameText, hne]
    obtain ⟨t', -, hlook', hne', -⟩ := Group.mistakes hacc' hnot
    obtain ⟨r', hr', hpart, htext⟩ := grouping_shown same _ j' g' hj' _ _ hlook'
    exact hne' (htext ▸ h.text _ r' r (mem_keyed_of_placed partials (mem_placed_of_take hr'))
      (mem_keyed_of_placed partials hplaced) hpart)
  · rw [heq] at hle
    exact absurd (List.getElem?_eq_some_iff.1 hj).1 (not_lt.2 hle)

/-- **Groups are sound**, for every list of records with readable time stamps and all known keys,
exactly if no part is offered to a group of its time that has a different text under its number
which looks like the same number. -/
theorem grouped_soundly_iff {ν : Type} [DecidableEq ν] (num : Text → Option ν)
    (partials : List Text) (hread : ∀ r ∈ rs, 0 ≤ tsSecs r.ts) :
    GroupedSoundly (awkSame num) partials rs ↔ Told (awkSame num) rs := by
  refine ⟨fun h => h.told (awkSame_self num), fun h => ?_⟩
  have hkept := grouping_kept rs
  rw [← h.grouping_eq (awkSame_self num)] at hkept
  exact hkept.groupedSoundly partials hread

/-- Whole numbers, read as awk reads them. -/
def whole (t : Text) : Option ℕ :=
  if t ≠ [] ∧ t.all Char.isDigit then some (Nat.ofDigitChars 10 t 0) else none

def samplePart (n : ℕ) (text : Text) : Record :=
  ⟨['1'], "123", "2026-10-13 09:41:07", some 5, 2, n, text⟩

/-- Two parts, and the first of them with another text: a group of its own. -/
theorem grouped_soundly_three :
    let rs := [samplePart 1 "Hi", samplePart 2 "01", samplePart 1 "Ho"]
    GroupedSoundly (awkSame whole) [] rs := by
  intro rs
  refine (grouped_soundly_iff whole [] (by simp [rs, samplePart]; decide)).2 (told_of_forall ?_)
  simp [rs, samplePart]
  decide

/-- Two texts of one part, `1` and `01`, come under one key. -/
theorem numbers_together :
    ¬ GroupedSoundly (awkSame whole) [] [samplePart 1 ['1'], samplePart 1 ['0', '1']] := by
  intro h
  obtain ⟨k, heq⟩ : ∃ k, keyed (awkSame whole) [] [samplePart 1 ['1'], samplePart 1 ['0', '1']] =
      [(k, samplePart 1 ['1']), (k, samplePart 1 ['0', '1'])] := ⟨_, rfl⟩
  have hsame := h.text k (samplePart 1 ['1']) (samplePart 1 ['0', '1']) (by simp [heq])
    (by simp [heq]) rfl
  exact absurd hsame (by decide)

end Mu300.Sms
