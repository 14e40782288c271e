import Mu300.Json.Marks

/-!
# Objects of the reader

* `exists_of_flat` — what `flat` takes is the text of a document.
* `flat_text` — of a document it gives the lines of its members, if each of them has one.
-/

namespace Mu300.FlatJson

open Shell List Option Bool

variable {anykey : Bool} {seen : List Text} {a o r t x v out k : Text} {c : Char}

/-! ## What is read is JSON -/

theorem exists_of_scan (h : scan o r = some (v, t)) : ∃ s : Json.Str, r = s.text ++ t := by
  induction hn : r.length using Nat.strong_induction_on generalizing r o with
  | _ n ih =>
    subst hn
    cases r with
    | nil => rw [scan_nil] at h; cases h
    | cons c r =>
      by_cases hquote : c = '"'
      · rw [hquote, scan_quote] at h
        cases h
        exact ⟨[], by rw [hquote]; rfl⟩
      by_cases hback : c = '\\'
      · rw [hback, scan_backslash] at h
        obtain ⟨e, he, h⟩ := bind_eq_some_iff.1 h
        obtain ⟨s₁, heq, hlen⟩ := exists_of_escape he
        obtain ⟨s₂, hs⟩ := ih _ (Nat.lt_succ_of_lt hlen) h rfl
        exact ⟨s₁ ++ s₂, by rw [hback, heq, hs]; simp [Json.Str.text]⟩
      · have hplain : plain c := by rw [plain, decide_eq_true hquote, decide_eq_true hback]; rfl
        rw [scan_cons hplain] at h
        split at h
        · cases h
        · obtain ⟨s, hs⟩ := ih _ (Nat.lt_succ_self _) h rfl
          exact ⟨.raw c ⟨hquote, hback⟩ :: s, by rw [hs]; rfl⟩

theorem exists_blank (r : Text) : ∃ b : Json.Blank, r = b.1 ++ ws r :=
  ⟨⟨r.takeWhile Json.isBlank, fun _ hc => mem_takeWhile_imp hc⟩, takeWhile_append_dropWhile.symm⟩

theorem exists_of_num (h : num r = some (x, t)) : ∃ n : Json.Number, r = n.1 ++ t := by
  rw [num] at h
  split at h
  · cases h
  · next k hk =>
    cases h
    obtain ⟨hle, hmatch⟩ := RegularExpression.rmatch_of_longest hk
    rw [length_take] at hle
    rw [take_take, Nat.min_eq_left (by omega)] at hmatch
    exact ⟨⟨_, hmatch⟩, (take_append_drop k r).symm⟩

theorem exists_of_lit (h : lit r = some (x, t)) : ∃ w : Json.Word, r = w.text ++ t := by
  rw [lit] at h
  simp only [take_take] at h
  split_ifs at h with h₁ h₂ h₃ <;> cases h
  · exact ⟨.true, by rw [Json.Word.text, ← h₁]; exact (take_append_drop 4 r).symm⟩
  · exact ⟨.false, by rw [Json.Word.text, ← h₂]; exact (take_append_drop 5 r).symm⟩
  · exact ⟨.null, by rw [Json.Word.text, ← h₃]; exact (take_append_drop 4 r).symm⟩

theorem exists_of_value {y : Scalar} (h : value r = some (y, t)) :
    ∃ v : Json.Value, r = v.text ++ t := by
  rw [value.eq_def] at h
  split at h
  · rw [quoted] at h
    split at h
    · cases h
    · next hs =>
      split at h <;> cases h
      obtain ⟨s, hs⟩ := exists_of_scan hs
      exact ⟨.str s, by rw [hs]; simp [Json.Value.text]⟩
  · split at h
    · obtain ⟨y, hy, he⟩ := map_eq_some_iff.1 h
      cases he
      obtain ⟨n, hn⟩ := exists_of_num hy
      exact ⟨.num n, by rw [Json.Value.text]; exact hn⟩
    · obtain ⟨y, hy, he⟩ := map_eq_some_iff.1 h
      cases he
      obtain ⟨w, hw⟩ := exists_of_lit hy
      exact ⟨.word w, by rw [Json.Value.text]; exact hw⟩

theorem exists_of_member {l : Text} (h : member anykey seen r = some (k, l, t)) :
    ∃ m : Json.Member Json.Value, r = m.text ++ ws t := by
  obtain ⟨b, hb⟩ := exists_blank r
  rw [member] at h
  split at h
  · next r₁ hr₁ =>
    split at h
    · cases h
    · next v r₂ hv =>
      obtain ⟨key, rfl⟩ := exists_of_scan hv
      obtain ⟨b₁, hb₁⟩ := exists_blank r₂
      dsimp only at h
      split at h
      · cases h
      split at h
      · cases h
      rw [keyed] at h
      split at h
      · next r₃ hr₃ =>
        obtain ⟨⟨x, u⟩, hx, he⟩ := map_eq_some_iff.1 h
        cases he
        obtain ⟨b₂, hb₂⟩ := exists_blank r₃
        obtain ⟨y, hy⟩ := exists_of_value hx
        obtain ⟨b₃, hb₃⟩ := exists_blank u
        refine ⟨⟨b, key, b₁, b₂, y, b₃⟩, ?_⟩
        rw [hb, hr₁, hb₁, hr₃, hb₂, hy, Json.Member.text]
        simpa using hb₃
      · cases h
  · cases h

/-- One pass of the loop, from what it does: a comma and more, or the end. -/
theorem flatPass_cases (p : Progress) :
    (∃ (m : Json.Member Json.Value) (p' : Progress), flatPass anykey p = .inl p' ∧
      p.rest = m.text ++ ',' :: p'.rest) ∨ ∃ x, flatPass anykey p = .inr x ∧ ∀ out, x = some out →
        ∃ (m : Json.Member Json.Value) (b : Json.Blank), p.rest = m.text ++ '}' :: b.1 := by
  rw [flatPass]
  split
  · exact .inr ⟨none, rfl, nofun⟩
  · next k l r hm =>
    obtain ⟨m, hm⟩ := exists_of_member hm
    split
    · next r₁ hr₁ => exact .inl ⟨m, _, rfl, by rw [hm, hr₁]⟩
    · next r₁ hr₁ =>
      refine .inr ⟨_, rfl, fun out hout => ⟨m, ?_⟩⟩
      obtain ⟨b, hb⟩ := exists_blank r₁
      rw [finish] at hout
      split at hout
      · next hend => exact ⟨b, by rw [hm, hr₁, hb, hend, append_nil]⟩
      · cases hout
    · exact .inr ⟨none, rfl, nofun⟩

theorem length_of_flatPass (p p' : Progress) (h : flatPass anykey p = .inl p') :
    p'.rest.length < p.rest.length := by
  rcases flatPass_cases p with ⟨m, p'', hpass, hrest⟩ | ⟨x, hpass, -⟩
  · cases hpass.symm.trans h
    simp [hrest]
    omega
  · cases hpass.symm.trans h

theorem exists_of_run {p : Progress}
    (h : Loop.run (flatPass anykey) none (fun p => p.rest.length) p = some out) :
    ∃ (m : Json.Member Json.Value) (ms : List (Json.Member Json.Value)) (b : Json.Blank),
      p.rest = Json.membersText (m :: ms) ++ '}' :: b.1 := by
  induction hn : p.rest.length using Nat.strong_induction_on generalizing p with
  | _ n ih =>
    rcases flatPass_cases p with ⟨m, p', hpass, hrest⟩ | ⟨x, hpass, hend⟩
    · rw [Loop.run_of_inl length_of_flatPass hpass] at h
      obtain ⟨m', ms, b, heq⟩ := ih _ (hn ▸ length_of_flatPass p p' hpass) h rfl
      exact ⟨m, m' :: ms, b, by rw [hrest, heq]; simp [Json.membersText]⟩
    · rw [Loop.run_of_inr hpass] at h
      obtain ⟨m, b, heq⟩ := hend out h
      exact ⟨m, [], b, by rw [heq, Json.membersText]⟩

/-- **What the reader takes is an object** in JSON. -/
theorem exists_of_flat (h : flat anykey r = some out) : ∃ d : Json.Document, r = d.text := by
  obtain ⟨b, hb⟩ := exists_blank r
  rw [flat] at h
  split at h
  · next r₁ hr₁ =>
    obtain ⟨b₁, hb₁⟩ := exists_blank r₁
    split at h
    · next r₂ hr₂ =>
      rw [finish] at h
      split at h
      · next hend =>
        obtain ⟨b₂, hb₂⟩ := exists_blank r₂
        refine ⟨⟨b, b₁, [], b₂⟩, ?_⟩
        rw [hb, hr₁, hb₁, hr₂, hb₂, hend]
        simp [Json.Document.text, Json.Value.text, Json.membersText]
      · cases h
    · obtain ⟨m, ms, b₂, heq⟩ := exists_of_run h
      refine ⟨⟨b, b₁, m :: ms, b₂⟩, ?_⟩
      rw [hb, hr₁, hb₁, show ws r₁ = _ from heq]
      simp [Json.Document.text, Json.Value.text]
  · cases h

/-! ## The members of an object -/

/-- What the reader makes of a value: of a number only when it is not longer than the 64 bytes that
`num()` looks at, of an array or an object never. -/
def scalarOf : Json.Value → Option Scalar
  | .str s =>
    match withMarks s with
    | none => none
    | some v => if s.any caught then none else some ⟨'s', unmark v⟩
  | .num n => if n.1.length ≤ 64 then some ⟨'n', n.1⟩ else none
  | .word w => some ⟨if w = .null then 'z' else 'b', w.text⟩
  | .arr _ _ | .obj _ _ => none

/-- The key and the line of a member. -/
def entry (anykey : Bool) (seen : List Text) (m : Json.Member Json.Value) : Option (Text × Text) :=
  match withMarks m.key with
  | none => none
  | some v =>
    let k := unmark v
    if 32 < k.length ∨ k ∈ seen then none
    else if ¬ isKey anykey k then none
    else (scalarOf m.value).map fun y => (k, line k y)

theorem ws_append (b : Json.Blank) (t : Text) : ws (b.1 ++ t) = ws t := dropWhile_append_of_pos b.2

theorem ws_self (ht : ∀ c ∈ t.head?, Json.isBlank c = false) : ws t = t := by
  cases t with
  | nil => rfl
  | cons c t => exact dropWhile_cons_of_neg (eq_false_iff.1 (ht c rfl))

theorem ws_blank (b : Json.Blank) (ht : ∀ c ∈ t.head?, Json.isBlank c = false) :
    ws (b.1 ++ t) = t :=
  (ws_append b t).trans (ws_self ht)

theorem str_text (s : Json.Str) (t : Text) : str (s.text ++ t) = (withMarks s).map (·, t) :=
  scan_text s [] t

/-- Without a match of `MARKED` there is nothing to find, so that the test before it changes
nothing. -/
theorem cleanctl_of_marked (h : marked v = none) : cleanctl v = false := by
  have hpass : cleanctlPass v = .inr false := by rw [cleanctlPass, h]
  exact Loop.run_of_inr hpass

theorem value_str (s : Json.Str) (t : Text) :
    value ((Json.Value.str s).text ++ t) = (scalarOf (.str s)).map (·, t) := by
  have hread : value ((Json.Value.str s).text ++ t) = quoted (s.text ++ t) := by
    rw [Json.Value.text]
    rfl
  rw [hread, quoted, str_text, scalarOf]
  cases hv : withMarks s with
  | none => rfl
  | some v =>
    have hclean := cleanctl_withMarks s v hv
    have htest : (marked v).isSome ∧ cleanctl v ↔ s.any caught := by
      rw [hclean, and_iff_right_iff_imp, ← hclean]
      intro hfound
      rw [isSome_iff_ne_none]
      intro hnone
      rw [cleanctl_of_marked hnone] at hfound
      cases hfound
    dsimp only [map_some]
    rw [if_congr htest rfl rfl, apply_ite (Option.map (·, t))]
    rfl

theorem value_of_head (hc : c ≠ '"') (t : Text) :
    value (c :: t) = if c = '-' || '0' ≤ c && c ≤ '9' then (num (c :: t)).map fun x =>
      (⟨'n', x.1⟩, x.2)
      else (lit (c :: t)).map fun x =>
        (⟨if x.1 = ['n', 'u', 'l', 'l'] then 'z' else 'b', x.1⟩, x.2) := by
  rw [value]
  · rfl
  · intro r he
    exact hc (List.cons.inj he).1

theorem value_bracket (hc : c = '[' ∨ c = '{') (t : Text) : value (c :: t) = none := by
  rcases hc with rfl | rfl <;> rfl

theorem num_short (n : Json.Number) (hlen : n.1.length ≤ 64)
    (ht : ∀ c ∈ t.head?, c ∉ Json.number.letters) : num (n.1 ++ t) = some (n.1, t) := by
  obtain ⟨k, hk⟩ : ∃ k, 64 = n.1.length + k := ⟨64 - n.1.length, by omega⟩
  have htake : (n.1 ++ t).take 64 = n.1 ++ t.take k := by rw [hk, take_length_add_append]
  have hhead : ∀ c ∈ (t.take k).head?, c ∉ Json.number.letters := by
    intro c hc
    rw [head?_take] at hc
    split at hc
    · cases hc
    · exact ht c hc
  rw [num, htake, RegularExpression.longest_append n.2 hhead]
  dsimp only
  rw [take_left, drop_left]

theorem num_long (n : Json.Number) (hlen : 64 < n.1.length) (t : Text) : num (n.1 ++ t) = none ∨
      ∃ x d r, num (n.1 ++ t) = some (x, d :: r) ∧ d ∈ Json.number.letters := by
  cases hnum : num (n.1 ++ t) with
  | none => exact .inl rfl
  | some y =>
    rw [num] at hnum
    split at hnum
    · cases hnum
    · next k hk =>
      cases hnum
      have hle := (RegularExpression.rmatch_of_longest hk).1
      rw [length_take] at hle
      have hdrop : (n.1 ++ t).drop k = n.1.drop k ++ t := drop_append_of_le_length (by omega)
      cases hrest : n.1.drop k with
      | nil =>
        have := drop_eq_nil_iff.1 hrest
        omega
      | cons d r =>
        have hd : d ∈ n.1 := mem_of_mem_drop (hrest ▸ mem_cons_self)
        refine .inr ⟨((n.1 ++ t).take 64).take k, d, r ++ t, ?_, ?_⟩
        · rw [hdrop, hrest, cons_append]
        · exact RegularExpression.mem_letters ((RegularExpression.rmatch_iff_matches' _ _).1 n.2) hd

theorem value_num (n : Json.Number) (t : Text) :
    value (n.1 ++ t) = (num (n.1 ++ t)).map fun x => (⟨'n', x.1⟩, x.2) := by
  obtain ⟨c, u, hn, hc⟩ := n.exists_head
  have hhead : c ≠ '"' ∧ (c = '-' || '0' ≤ c && c ≤ '9') := by
    rcases hc with rfl | hc
    · decide
    · have hall : Json.digits.all (fun c => c ≠ '"' && (c = '-' || '0' ≤ c && c ≤ '9')) := by decide
      have hc := all_eq_true.1 hall c hc
      rwa [and_eq_true, decide_eq_true_eq] at hc
  rw [hn, cons_append, value_of_head hhead.1, if_pos hhead.2]

/-- **A value** before a character that is not one of numbers: it is read as `scalarOf` says, or it
is a number of more than 64 bytes and a part of it is left. -/
theorem value_text (y : Json.Value) (ht : ∀ c ∈ t.head?, c ∉ Json.number.letters) :
    value (y.text ++ t) = (scalarOf y).map (·, t) ∨
      scalarOf y = none ∧ ∃ x d r, value (y.text ++ t) = some (x, d :: r) ∧
        d ∈ Json.number.letters := by
  cases y with
  | str s => exact .inl (value_str s t)
  | word w => exact .inl (by rw [Json.Value.text]; cases w <;> rfl)
  | arr w es =>
    rw [Json.Value.text]
    exact .inl (value_bracket (.inl rfl) _)
  | obj w ms =>
    rw [Json.Value.text]
    exact .inl (value_bracket (.inr rfl) _)
  | num n =>
    rw [Json.Value.text, value_num, scalarOf]
    by_cases hlen : n.1.length ≤ 64
    · rw [if_pos hlen, num_short n hlen ht]
      exact .inl rfl
    · rw [if_neg hlen]
      rcases num_long n (by omega) t with hnum | ⟨x, d, r, hnum, hd⟩
      · rw [hnum]
        exact .inl rfl
      · rw [hnum]
        exact .inr ⟨rfl, _, d, r, rfl, hd⟩

/-- What may follow a member: neither a blank nor a character of numbers. -/
def Ends (t : Text) : Prop := ∀ c ∈ t.head?, Json.isBlank c = false ∧ c ∉ Json.number.letters

theorem ends_cons (hc : c = ',' ∨ c = '}') (t : Text) : Ends (c :: t) := by
  rintro d ⟨⟩
  rcases hc with rfl | rfl <;> decide

theorem Ends.append (ht : Ends t) (b : Json.Blank) :
    ∀ c ∈ (b.1 ++ t).head?, c ∉ Json.number.letters := by
  obtain ⟨b, hb⟩ := b
  intro c hc
  cases b with
  | nil => exact (ht c hc).2
  | cons d b =>
    obtain rfl : d = c := Option.some.inj hc
    have hblank : Json.number.letters.all (fun d => !Json.isBlank d) := by decide
    intro hd
    have hnot := all_eq_true.1 hblank d hd
    rw [hb d mem_cons_self] at hnot
    cases hnot

theorem ws_member (m : Json.Member Json.Value) (t : Text) :
    ws (m.text ++ t) = '"' :: (m.key.text ++ (m.beforeColon.1 ++
      ':' :: (m.afterColon.1 ++ (m.value.text ++ (m.after.1 ++ t))))) := by
  rw [Json.Member.text]
  simp only [append_assoc, cons_append]
  exact ws_blank m.before (by rintro c ⟨⟩; rfl)

theorem member_congr {r' : Text} (h : ws r = ws r') :
    member anykey seen r = member anykey seen r' := by
  rw [member, member, h]

theorem member_text (anykey : Bool) (seen : List Text) (m : Json.Member Json.Value) (ht : Ends t) :
    member anykey seen (m.text ++ t) = (entry anykey seen m).map
      (fun x => (x.1, x.2, m.after.1 ++ t)) ∨
      entry anykey seen m = none ∧
      ∃ k l d r, member anykey seen (m.text ++ t) = some (k, l, d :: r) ∧
        d ∈ Json.number.letters := by
  have hcolon : ws (m.beforeColon.1 ++
      ':' :: (m.afterColon.1 ++ (m.value.text ++ (m.after.1 ++ t)))) =
      ':' :: (m.afterColon.1 ++ (m.value.text ++ (m.after.1 ++ t))) :=
    ws_blank m.beforeColon (by rintro c ⟨⟩; rfl)
  have hvalue : ws (m.afterColon.1 ++ (m.value.text ++ (m.after.1 ++ t))) =
      m.value.text ++ (m.after.1 ++ t) :=
    ws_blank m.afterColon (m.value.isBlank_head _)
  simp only [member, ws_member m t, str_text, entry]
  cases withMarks m.key with
  | none => exact .inl rfl
  | some v =>
    dsimp only [map_some]
    split
    · exact .inl rfl
    split
    · exact .inl rfl
    simp only [keyed, hcolon, hvalue]
    rcases value_text m.value (ht.append m.after) with h | ⟨hnone, x, d, r, h, hd⟩
    · rw [h, Option.map_map, Option.map_map]
      exact .inl rfl
    · rw [h, hnone]
      exact .inr ⟨rfl, _, _, d, r, rfl, hd⟩

/-- **One pass** over a member, whether a comma or the end of the object follows. -/
theorem flatPass_text (anykey : Bool) (seen : List Text) (m : Json.Member Json.Value)
    (hc : c = ',' ∨ c = '}') (out t : Text) :
    flatPass anykey ⟨seen, out, m.text ++ c :: t⟩ = match entry anykey seen m with
      | none => .inr none
      | some (k, l) => if c = ',' then .inl ⟨k :: seen, out ++ l, t⟩
        else .inr (finish (out ++ l) t) := by
  have hends := ends_cons hc t
  have hws : ws (m.after.1 ++ c :: t) = c :: t := ws_blank m.after fun d hd => (hends d hd).1
  rw [flatPass]
  dsimp only
  rcases member_text anykey seen m hends with h | ⟨hnone, k, l, d, r, h, hd⟩
  · rw [h]
    cases entry anykey seen m with
    | none => rfl
    | some x =>
      dsimp only [map_some]
      rw [hws]
      rcases hc with rfl | rfl <;> rfl
  · -- what is left of a long number
    have hall : Json.number.letters.all (fun d => !Json.isBlank d && (d ≠ ',' && d ≠ '}')) := by
      decide
    have hstop := all_eq_true.1 hall d hd
    rw [and_eq_true, and_eq_true, decide_eq_true_eq, decide_eq_true_eq, not_eq_true'] at hstop
    obtain ⟨hblank, hcomma, hbrace⟩ := hstop
    have hws : ws (d :: r) = d :: r := dropWhile_cons_of_neg (eq_false_iff.1 hblank)
    rw [h, hnone]
    dsimp only
    rw [hws]
    split
    · next he => exact absurd (List.cons.inj he).1 hcomma
    · next he => exact absurd (List.cons.inj he).1 hbrace
    · rfl

/-! ## Whole objects -/

/-- The keys and lines of members, none when one of them is refused. -/
def entries (anykey : Bool) :
    List Text → List (Json.Member Json.Value) → Option (List (Text × Text))
  | _, [] => some []
  | seen, m :: ms =>
    match entry anykey seen m with
    | none => none
    | some x => (entries anykey (x.1 :: seen) ms).map (x :: ·)

/-- The lines of members, one after the other. -/
def linesOf (xs : List (Text × Text)) : Text := xs.flatMap Prod.snd

/-- **The loop** over the members of an object up to its end. -/
theorem run_members (anykey : Bool) (seen : List Text) (out : Text) (m : Json.Member Json.Value)
    (ms : List (Json.Member Json.Value)) (ht : ws t = []) :
    Loop.run (flatPass anykey) none (fun p => p.rest.length)
        ⟨seen, out, Json.membersText (m :: ms) ++ '}' :: t⟩ =
      (entries anykey seen (m :: ms)).map fun xs => out ++ linesOf xs := by
  induction ms generalizing m seen out with
  | nil =>
    have hpass := flatPass_text anykey seen m (.inr rfl : '}' = ',' ∨ '}' = '}') out t
    rw [Json.membersText, entries]
    cases he : entry anykey seen m with
    | none =>
      rw [he] at hpass
      exact Loop.run_of_inr hpass
    | some x =>
      rw [he] at hpass
      rw [Loop.run_of_inr hpass, finish, if_pos ht]
      simp [entries, linesOf]
  | cons m' ms ih =>
    have hpass := flatPass_text anykey seen m (.inl rfl : ',' = ',' ∨ ',' = '}') out
      (Json.membersText (m' :: ms) ++ '}' :: t)
    have htext : Json.membersText (m :: m' :: ms) ++ '}' :: t =
        m.text ++ ',' :: (Json.membersText (m' :: ms) ++ '}' :: t) := by
      rw [Json.membersText, append_assoc, cons_append]
      rintro ⟨⟩
    rw [htext, entries]
    cases he : entry anykey seen m with
    | none =>
      rw [he] at hpass
      exact Loop.run_of_inr hpass
    | some x =>
      rw [he] at hpass
      rw [Loop.run_of_inl length_of_flatPass hpass, ih, Option.map_map]
      congr 1
      funext xs
      simp [linesOf]

/-- **An object is read as its members are.** -/
theorem flat_text (d : Json.Document) :
    flat anykey d.text = (entries anykey [] d.members).map linesOf := by
  have hopen : ws d.text =
      '{' :: (d.inside.1 ++ (Json.membersText d.members ++ '}' :: d.after.1)) := by
    rw [Json.Document.text, Json.Value.text]
    simp only [append_assoc, cons_append, nil_append]
    exact ws_blank d.before (by rintro c ⟨⟩; rfl)
  have hend : ws d.after.1 = [] := by
    have := ws_append d.after []
    rwa [append_nil] at this
  simp only [flat, hopen, ws_append]
  cases hms : d.members with
  | nil =>
    have hclose : ws (Json.membersText [] ++ '}' :: d.after.1) = '}' :: d.after.1 := rfl
    rw [hclose]
    exact if_pos hend
  | cons m ms =>
    obtain ⟨u, hu⟩ : ∃ u, Json.membersText (m :: ms) ++ '}' :: d.after.1 = m.text ++ u := by
      cases ms with
      | nil => exact ⟨'}' :: d.after.1, by rw [Json.membersText]⟩
      | cons m' ms =>
        exact ⟨',' :: (Json.membersText (m' :: ms) ++ '}' :: d.after.1), by simp [Json.membersText]⟩
    have hquote := ws_member m u
    rw [← hu] at hquote
    rw [hquote]
    -- the first pass skips the blank that is skipped already
    refine Eq.trans (Loop.run_congr length_of_flatPass ?_) (run_members anykey [] [] m ms hend)
    rw [flatPass, flatPass]
    dsimp only
    rw [member_congr (hquote.trans (ws_self (by rintro c ⟨⟩; rfl)).symm)]

end Mu300.FlatJson
