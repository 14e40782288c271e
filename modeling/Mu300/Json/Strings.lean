import Mu300.Json.Reader

/-!
# Strings of the reader

`str()` goes through the text in pieces of 512 bytes. It reads the same as character by character:
`scan_nil`, `scan_quote`, `scan_backslash` and `scan_cons`.
-/

namespace Mu300.FlatJson

open Shell List Option Json

/-- A byte that stands for itself in a string. -/
def plain (c : Char) : Bool := c ≠ '"' && c ≠ '\\'

variable {a o r t x : Text} {c : Char} (e : Json.Short)

/-! ## Pieces -/

theorem index_of_notMem (h : c ∉ t) : index t c = 0 := if_neg h

theorem index_append_cons (h : c ∉ a) : index (a ++ c :: t) c = a.length + 1 := by
  rw [index, if_pos (mem_append_right _ mem_cons_self), idxOf_append_of_notMem h, idxOf_cons_self,
    Nat.add_zero]

theorem index_append (h : c ∉ a) : index (a ++ t) c = 0 ∨ a.length < index (a ++ t) c := by
  by_cases hc : c ∈ a ++ t
  · rw [index, if_pos hc, idxOf_append_of_notMem h]
    omega
  · exact .inl (index_of_notMem hc)

theorem notMem_of_plain (h : a.all plain) : '"' ∉ a ∧ '\\' ∉ a := by
  rw [List.all_eq_true] at h
  exact ⟨fun hq => absurd (h _ hq) (by decide), fun hb => absurd (h _ hb) (by decide)⟩

theorem strPass_plain (hr : r ≠ []) (h : (r.take 512).all plain) :
    strPass (o, r) = if (r.take 512).any ctl then .inr none
      else .inl (o ++ r.take 512, r.drop 512) := by
  obtain ⟨hq, hb⟩ := notMem_of_plain h
  have hdrop : r.drop (r.take 512).length = r.drop 512 := by
    rw [length_take, ← drop_eq_drop_min]
  rw [strPass]
  dsimp only
  rw [if_neg hr, index_of_notMem hq, index_of_notMem hb, if_pos ⟨rfl, rfl⟩, hdrop]

theorem take_chunk {c : Char} (h : a.length < 512) :
    ∃ k, (a ++ c :: t).take 512 = a ++ c :: t.take k := by
  obtain ⟨k, hk⟩ : ∃ k, 512 = a.length + (k + 1) := ⟨511 - a.length, by omega⟩
  exact ⟨k, by rw [hk, take_length_add_append, take_succ_cons]⟩

theorem strPass_quote (ha : a.all plain) (hlen : a.length < 512) :
    strPass (o, a ++ '"' :: t) = if a.any ctl then .inr none else .inr (some (o ++ a, t)) := by
  obtain ⟨hq, hb⟩ := notMem_of_plain ha
  obtain ⟨k, hchunk⟩ := take_chunk (t := t) (c := '"') hlen
  have hquote : index (a ++ '"' :: t.take k) '"' = a.length + 1 := index_append_cons hq
  have hback : index (a ++ '"' :: t.take k) '\\' = 0 ∨
      a.length + 1 < index (a ++ '"' :: t.take k) '\\' := by
    have hb' : '\\' ∉ a ++ ['"'] := by
      rw [mem_append, mem_singleton, not_or]
      exact ⟨hb, by decide⟩
    have := index_append (t := t.take k) hb'
    rwa [append_assoc, singleton_append, length_append, length_singleton] at this
  rw [strPass]
  dsimp only
  rw [if_neg (by simp), hchunk, hquote, if_neg (by omega), if_pos (by omega), Nat.add_sub_cancel,
    take_left, ← drop_drop, drop_left, drop_succ_cons, drop_zero]

theorem strPass_backslash (ha : a.all plain) (hlen : a.length < 512) :
    strPass (o, a ++ '\\' :: t) = if a.any ctl then .inr none
      else (escape t).elim (.inr none) fun e => .inl (o ++ a ++ e.1, e.2) := by
  obtain ⟨hq, hb⟩ := notMem_of_plain ha
  obtain ⟨k, hchunk⟩ := take_chunk (t := t) (c := '\\') hlen
  have hback : index (a ++ '\\' :: t.take k) '\\' = a.length + 1 := index_append_cons hb
  have hquote : index (a ++ '\\' :: t.take k) '"' = 0 ∨
      a.length < index (a ++ '\\' :: t.take k) '"' := index_append hq
  rw [strPass]
  dsimp only
  rw [if_neg (by simp), hchunk, hback, if_neg (by omega), if_neg (by omega), Nat.add_sub_cancel,
    take_left, ← drop_drop, drop_left, drop_succ_cons, drop_zero]
  cases escape t <;> rfl

/-! ## No pass without progress -/

theorem exists_of_hex4 {n : ℕ} (h : hex4 r = some (n, t)) :
    ∃ d : Json.Hex4, r = d.text ++ t := by
  match r, h with
  | a :: b :: c :: d :: r, h =>
    obtain ⟨m, hm, heq⟩ := map_eq_some_iff.1 h
    obtain ⟨-, rfl⟩ := Prod.mk.inj heq
    simp only [foldlM_cons, bind_eq_bind, bind_eq_some_iff, map_eq_some_iff] at hm
    obtain ⟨-, ⟨_, ha, -⟩, -, ⟨_, hb, -⟩, -, ⟨_, hc, -⟩, -, ⟨_, hd, -⟩, -⟩ := hm
    exact ⟨⟨⟨a, ha ▸ rfl⟩, ⟨b, hb ▸ rfl⟩, ⟨c, hc ▸ rfl⟩, ⟨d, hd ▸ rfl⟩⟩, rfl⟩

/-- What has been read is written in the way of JSON: an item, or the two of a surrogate pair. -/
theorem exists_of_unicode (h : unicode r = some (x, t)) :
    ∃ s : Json.Str, '\\' :: 'u' :: r = s.flatMap Json.Item.text ++ t ∧ t.length < r.length := by
  rw [unicode] at h
  split at h
  · cases h
  · next n r₁ hn =>
    obtain ⟨d, rfl⟩ := exists_of_hex4 hn
    split at h
    · cases h
    split at h
    · rw [otherHalf.eq_def] at h
      split at h
      · split at h
        · cases h
        · next hm =>
          obtain ⟨e, rfl⟩ := exists_of_hex4 hm
          split at h <;> cases h
          exact ⟨[.unicode d, .unicode e], rfl, by simp; omega⟩
      · cases h
    split at h <;> cases h
    exact ⟨[.unicode d], rfl, by simp [Json.Hex4.text]; omega⟩

theorem exists_of_escape (h : escape r = some (x, t)) :
    ∃ s : Json.Str, '\\' :: r = s.flatMap Json.Item.text ++ t ∧ t.length < r.length := by
  cases r with
  | nil => cases h
  | cons c r =>
    have hshort : ∀ (e : Json.Short) {y : Text}, c = e.letter → some (y, r) = some (x, t) →
        ∃ s : Json.Str, '\\' :: c :: r = s.flatMap Json.Item.text ++ t ∧
          t.length < (c :: r).length := by
      rintro e y rfl ⟨⟩
      exact ⟨[.short e], rfl, Nat.lt_succ_self _⟩
    rw [escape] at h
    split_ifs at h with h₁ h₂ h₃ h₄ h₅ h₆ h₇
    · rcases h₁ with hc | hc | hc
      · exact hshort .quote hc h
      · exact hshort .backslash hc h
      · exact hshort .slash hc h
    · exact hshort .n h₂ h
    · exact hshort .t h₃ h
    · exact hshort .r h₄ h
    · exact hshort .b h₅ h
    · exact hshort .f h₆ h
    · obtain ⟨s, heq, hlt⟩ := exists_of_unicode h
      exact ⟨s, h₇ ▸ heq, Nat.lt_succ_of_lt hlt⟩

theorem length_of_strPass (s s' : Text × Text) (h : strPass s = .inl s') :
    s'.2.length < s.2.length := by
  obtain ⟨o, r⟩ := s
  dsimp only
  rw [strPass] at h
  dsimp only at h
  split at h
  · cases h
  · next hr =>
    have hpos := length_pos_iff.2 hr
    split at h
    · split at h
      · cases h
      · cases h
        rw [length_drop, length_take]
        omega
    · split at h
      · split at h
        · cases h
        · cases h
      · split at h
        · cases h
        · split at h
          · cases h
          · next hx =>
            cases h
            exact (exists_of_escape hx).choose_spec.2.trans_le (by rw [length_drop]; omega)

/-! ## Character by character -/

theorem scan_of_inl {o' r' : Text} (h : strPass (o, r) = .inl (o', r')) : scan o r = scan o' r' :=
  Loop.run_of_inl length_of_strPass h

theorem scan_of_inr {result : Option (Text × Text)} (h : strPass (o, r) = .inr result) :
    scan o r = result :=
  Loop.run_of_inr h

theorem scan_nil (o : Text) : scan o [] = none := scan_of_inr rfl

theorem scan_quote (o t : Text) : scan o ('"' :: t) = some (o, t) := by
  have hpass := strPass_quote (a := []) (o := o) (t := t) rfl (by decide)
  rw [nil_append, append_nil] at hpass
  exact scan_of_inr hpass

theorem scan_backslash (o t : Text) :
    scan o ('\\' :: t) = (escape t).bind fun e => scan (o ++ e.1) e.2 := by
  have hpass := strPass_backslash (a := []) (o := o) (t := t) rfl (by decide)
  cases he : escape t with
  | none =>
    rw [he] at hpass
    exact scan_of_inr hpass
  | some e =>
    rw [he, append_nil] at hpass
    exact scan_of_inl hpass

theorem scan_piece (ha : (r.take 512).all plain) (hlen : 512 ≤ r.length) :
    scan o r = if (r.take 512).any ctl then none else scan (o ++ r.take 512) (r.drop 512) := by
  have hne : r ≠ [] := by
    rintro rfl
    cases hlen
  have hpass := strPass_plain (o := o) hne ha
  split
  · next hctl =>
    rw [if_pos hctl] at hpass
    exact scan_of_inr hpass
  · next hctl =>
    rw [if_neg hctl] at hpass
    exact scan_of_inl hpass

theorem scan_last (ha : a.all plain) (hlen : a.length < 512) (ht : ∀ c ∈ t.head?, ¬ plain c) :
    scan o (a ++ t) = if a.any ctl then none else scan (o ++ a) t := by
  cases t with
  | nil =>
    rw [append_nil, scan_nil, ite_self]
    by_cases hne : a = []
    · rw [hne, scan_nil]
    have htake : a.take 512 = a := take_of_length_le hlen.le
    have hpass := strPass_plain (o := o) hne (by rwa [htake])
    rw [htake, drop_of_length_le hlen.le] at hpass
    split at hpass
    · exact scan_of_inr hpass
    · rw [scan_of_inl hpass, scan_nil]
  | cons c t =>
    have hc : c = '"' ∨ c = '\\' := by
      have := ht c rfl
      rw [plain, Bool.and_eq_true, not_and_or, decide_eq_true_eq, decide_eq_true_eq, not_ne_iff,
        not_ne_iff] at this
      exact this
    rcases hc with rfl | rfl
    · have hpass := strPass_quote (o := o) (t := t) ha hlen
      rw [scan_quote]
      split at hpass
      · next hctl => rw [if_pos hctl, scan_of_inr hpass]
      · next hctl => rw [if_neg hctl, scan_of_inr hpass]
    · have hpass := strPass_backslash (o := o) (t := t) ha hlen
      rw [scan_backslash]
      split at hpass
      · next hctl => rw [if_pos hctl, scan_of_inr hpass]
      · next hctl =>
        rw [if_neg hctl]
        cases he : escape t with
        | none =>
          rw [he] at hpass
          exact scan_of_inr hpass
        | some e =>
          rw [he] at hpass
          exact scan_of_inl hpass

theorem ite_any_append (a b : Text) (result : Option (Text × Text)) :
    (if a.any ctl then none else if b.any ctl then none else result) =
      if (a ++ b).any ctl then none else result := by
  rw [any_append]
  cases a.any ctl <;> rfl

/-- A run of bytes that stand for themselves, up to the next quote or backslash or the end. -/
theorem scan_append (ha : a.all plain) (ht : ∀ c ∈ t.head?, ¬ plain c) :
    scan o (a ++ t) = if a.any ctl then none else scan (o ++ a) t := by
  induction hn : a.length using Nat.strong_induction_on generalizing a o with
  | _ n ih =>
    by_cases hlong : 512 ≤ a.length
    · have hsplit := take_append_drop 512 a
      have htake : (a ++ t).take 512 = a.take 512 := take_append_of_le_length hlong
      have hdrop : (a ++ t).drop 512 = a.drop 512 ++ t := drop_append_of_le_length hlong
      rw [← hsplit, all_append, Bool.and_eq_true] at ha
      have hrest := ih _ (by rw [length_drop]; omega) (o := o ++ a.take 512) ha.2 rfl
      rw [scan_piece (by rw [htake]; exact ha.1) (by rw [length_append]; omega), htake, hdrop,
        hrest, append_assoc, ite_any_append, hsplit]
    · exact scan_last ha (by omega) ht

theorem scan_cons (hc : plain c) (o t : Text) :
    scan o (c :: t) = if ctl c then none else scan (o ++ [c]) t := by
  have hsplit : t.takeWhile plain ++ t.dropWhile plain = t := takeWhile_append_dropWhile
  have hall : (t.takeWhile plain).all plain := all_takeWhile
  have hstop : ∀ c ∈ (t.dropWhile plain).head?, ¬ plain c := fun c hc hplain => by
    have hnot := head?_dropWhile_not plain t
    rw [mem_def.1 hc] at hnot
    exact Bool.eq_false_iff.1 hnot hplain
  have hrun := scan_append (a := c :: t.takeWhile plain) (o := o)
    (by rw [all_cons, hc]; exact hall) hstop
  rw [cons_append, hsplit] at hrun
  rw [hrun, ← singleton_append, ← ite_any_append, ← append_assoc, ← scan_append hall hstop,
    hsplit, any_cons, any_nil, Bool.or_false]

/-! ## The strings of JSON -/

/-- What `str()` makes of a string, with the marks. -/
def withMarks : Json.Str → Option Text
  | [] => some []
  | .raw c _ :: s => if ctl c then none else (withMarks s).map (c :: ·)
  | .short e :: s =>
    (withMarks s).map ((if e = .b ∨ e = .f then mark [e.char] else [e.char]) ++ ·)
  | .unicode d :: s =>
    let u := d.toNat
    if u = 0 then none
    else if isHigh u then
      match s with
      | .unicode e :: s' =>
        let l := e.toNat
        if isLow l then (withMarks s').map (mark (utf8 (ofPair u l)) ++ ·) else none
      | _ => none
    else if isLow u then none
    else (withMarks s).map (mark (utf8 u) ++ ·)

theorem hex4_text (d : Json.Hex4) (t : Text) :
    hex4 (d.text ++ t) = some (d.toNat, t) := by
  have hd : ∀ d : Json.HexDigit, hexDigit d.1 = some d.toNat := fun d =>
    (some_get d.2).symm
  simp only [Json.Hex4.text, cons_append, nil_append, hex4, foldlM_cons, foldlM_nil, hd, map_some,
    bind_eq_bind, bind_some, Option.pure_def, Nat.zero_mul, Nat.zero_add, Json.Hex4.toNat]

theorem unicode_text (d : Json.Hex4) (t : Text) : unicode (d.text ++ t) =
    if d.toNat = 0 then none else if isHigh d.toNat then otherHalf d.toNat t
    else if isLow d.toNat then none else some (mark (utf8 d.toNat), t) := by
  simp only [unicode, hex4_text, isHigh_iff, isLow_iff]

theorem otherHalf_text (u : ℕ) (d : Json.Hex4) (t : Text) :
    otherHalf u ('\\' :: 'u' :: (d.text ++ t)) =
    if isLow d.toNat then some (mark (utf8 (ofPair u d.toNat)), t) else none := by
  rw [otherHalf, hex4_text]
  by_cases hlow : isLow d.toNat
  · rw [if_pos hlow]
    rw [isLow_iff] at hlow
    exact if_neg (by omega)
  · rw [if_neg hlow]
    rw [isLow_iff] at hlow
    exact if_pos (by omega)

theorem text_cons (i : Json.Item) (s : Json.Str) : Json.Str.text (i :: s) = i.text ++ s.text := by
  rw [Json.Str.text, flatMap_cons, append_assoc]
  rfl

/-! Each way to write a character, read by `str()`. -/

theorem scan_raw (hc : c ≠ '"' ∧ c ≠ '\\') (s : Json.Str) (o t : Text) :
    scan o (Json.Str.text (.raw c hc :: s) ++ t) =
      if ctl c then none else scan (o ++ [c]) (s.text ++ t) := by
  have hplain : plain c := by rw [plain, decide_eq_true hc.1, decide_eq_true hc.2]; rfl
  exact scan_cons hplain o _

theorem scan_short (s : Json.Str) (o t : Text) : scan o (Json.Str.text (.short e :: s) ++ t) =
      scan (o ++ if e = .b ∨ e = .f then mark [e.char] else [e.char]) (s.text ++ t) := by
  cases e <;> exact scan_backslash o _

theorem scan_unicode (d : Json.Hex4) (s : Json.Str) (o t : Text) :
    scan o (Json.Str.text (.unicode d :: s) ++ t) =
      (unicode (d.text ++ (s.text ++ t))).bind fun e => scan (o ++ e.1) e.2 := by
  exact scan_backslash o _

theorem text_ne_unicode {s : Json.Str} (hs : ∀ d s', s ≠ .unicode d :: s') (t r : Text) :
    s.text ++ t ≠ '\\' :: 'u' :: r := by
  match s with
  | [] => exact fun he => absurd (cons.inj he).1 (by decide)
  | .raw c hc :: s => exact fun he => hc.2 (cons.inj he).1
  | .short e :: s =>
    intro he
    have hletter : e.letter = 'u' := (cons.inj (cons.inj he).2).1
    cases e <;> cases hletter
  | .unicode d :: s => exact absurd rfl (hs d s)

theorem map_append_pair (w : Option Text) (o x t : Text) :
    (w.map (x ++ ·)).map (fun v => (o ++ v, t)) = w.map fun v => (o ++ x ++ v, t) := by
  cases w with
  | none => rfl
  | some v => rw [map_some, map_some, map_some, append_assoc]

theorem scan_text (s : Json.Str) (o t : Text) :
    scan o (s.text ++ t) = (withMarks s).map fun v => (o ++ v, t) := by
  fun_induction withMarks s generalizing o with
  | case1 =>
    rw [map_some, append_nil]
    exact scan_quote o t
  | case2 c hc s hctl => rw [scan_raw, if_pos hctl, map_none]
  | case3 c hc s hctl ih =>
    rw [scan_raw, if_neg hctl, ih]
    exact (map_append_pair _ o [c] t).symm
  | case4 e s ih => rw [scan_short, ih, map_append_pair]
  | case5 d s u hzero => rw [scan_unicode, unicode_text, if_pos hzero, bind_none, map_none]
  | case6 d u hzero hhigh e s l hlow ih =>
    rw [scan_unicode, unicode_text, if_neg hzero, if_pos hhigh, text_cons, append_assoc,
      Json.Item.text,
      cons_append, cons_append, otherHalf_text, if_pos hlow, bind_some, ih, map_append_pair]
  | case7 d u hzero hhigh e s l hlow =>
    rw [scan_unicode, unicode_text, if_neg hzero, if_pos hhigh, text_cons, append_assoc,
      Json.Item.text, cons_append, cons_append, otherHalf_text, if_neg hlow, bind_none, map_none]
  | case8 d s u hzero hhigh hs =>
    rw [scan_unicode, unicode_text, if_neg hzero, if_pos hhigh, otherHalf, bind_none, map_none]
    exact text_ne_unicode hs t
  | case9 d s u hzero hhigh hlow =>
    rw [scan_unicode, unicode_text, if_neg hzero, if_neg hhigh, if_pos hlow, bind_none, map_none]
  | case10 d s u hzero hhigh hlow ih =>
    rw [scan_unicode, unicode_text, if_neg hzero, if_neg hhigh, if_neg hlow, bind_some, ih,
      map_append_pair]

end Mu300.FlatJson
