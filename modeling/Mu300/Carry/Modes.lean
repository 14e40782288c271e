import Mathlib.Data.Nat.Bitwise
import Mu300.Carry.Kept

/-!
# Narrowed modes

A file that the user closed to others, and that the new system has too.

* `Tables.Does` — all that can be done about an entry, read off the decisions once.
* `about_emitted`, `blocking_runOver` — so the lines for an entry are about its path, and what
  cannot be there is no directory of the new system.
-/

namespace Mu300.Carry

open Shell FileTree List

/-! ## Permission bits -/

/-- Every permission bit of one mode is one of the other, and they are not the same. -/
def Narrower (a b : Mode) : Prop := a ≠ b ∧ ∀ i, a.val.testBit i → b.val.testBit i

theorem octal_bit (a : Mode) (i : ℕ) {j : ℕ} (hj : j < 3) :
    octal a i / 2 ^ j % 2 = (a.val.testBit (j + 3 * i)).toNat := by
  rw [← Nat.toNat_testBit, octal, show 8 = 2 ^ 3 from rfl, ← pow_mul, Nat.testBit_mod_two_pow,
    Nat.testBit_div_two_pow, decide_eq_true hj, Bool.true_and]

theorem toNat_le_iff {x y : Bool} : x.toNat ≤ y.toNat ↔ (x → y) := by
  cases x <;> cases y <;> decide

theorem testBit_of_ge (a : Mode) {i : ℕ} (hi : 12 ≤ i) : a.val.testBit i = false := by
  apply Nat.testBit_lt_two_pow
  calc a.val < 2 ^ 12 := a.isLt
    _ ≤ 2 ^ i := Nat.pow_le_pow_right (by decide) hi

theorem narrower_iff (a b : Mode) : narrower a b ↔ Narrower a b := by
  rw [narrower, Bool.and_eq_true, decide_eq_true_eq, Narrower]
  refine and_congr_right fun _ => ?_
  have hdigit : ∀ i, ([4, 2, 1].all fun k => decide (octal a i / k % 2 ≤ octal b i / k % 2)) ↔
      ∀ j < 3, a.val.testBit (j + 3 * i) → b.val.testBit (j + 3 * i) := by
    intro i
    have hk : ∀ j < 3, octal a i / 2 ^ j % 2 ≤ octal b i / 2 ^ j % 2 ↔
        (a.val.testBit (j + 3 * i) → b.val.testBit (j + 3 * i)) := fun j hj => by
      rw [octal_bit a i hj, octal_bit b i hj, toNat_le_iff]
    rw [← forall₂_congr hk]
    simp only [all_cons, all_nil, Bool.and_true, Bool.and_eq_true, decide_eq_true_eq]
    constructor
    · rintro ⟨h4, h2, h1⟩ j hj
      match j, hj with
      | 0, _ => exact h1
      | 1, _ => exact h2
      | 2, _ => exact h4
    · intro h
      exact ⟨h 2 (by decide), h 1 (by decide), h 0 (by decide)⟩
  rw [all_eq_true]
  constructor
  · intro h i hbit
    by_cases hi : i < 12
    · have hd := (hdigit (i / 3)).1 (h (i / 3) (mem_range.2 (by omega))) (i % 3)
        (Nat.mod_lt _ (by decide))
      rw [Nat.mod_add_div] at hd
      exact hd hbit
    · rw [testBit_of_ge a (by omega)] at hbit
      cases hbit
  · intro h i _
    exact (hdigit i).2 fun j _ => h _

/-! ## What is done about an entry -/

/-- The path that a line is about, unless it removes something or only says so. -/
def Line.about : Line → Option Text
  | .L p | .V p | .A p | .H p | .M _ _ _ p => some p
  | _ => none

/-- About no path, and nothing is blocked. -/
structure Emit.Silent (a : Emit) : Prop where
  lines : ∀ l ∈ a.lines, l.about = none
  block : a.block = none

theorem Emit.silent_print {l : Line} (h : l.about = none) : (Emit.print l).Silent where
  lines := fun l' hl => by rw [mem_singleton.1 hl, h]
  block := rfl

theorem Emit.Silent.andThen {a b : Emit} (ha : a.Silent) (hb : b.Silent) :
    (a.andThen b).Silent where
  lines := fun l hl => (mem_append.1 hl).elim (ha.lines l) (hb.lines l)
  block := by rw [Emit.andThen, ha.block, hb.block]; rfl

namespace Tables

variable {T : Tables} {e n : Entry} {S : Sums} {p : Text} {o : Emit}

/-- The new system has no directory there. -/
def NoDir (T : Tables) (p : Text) : Prop := ∀ n, T.ns p = some n → n.t ≠ .d

/-- All that can be done about an entry. A directory is carried, and one is said not to be there,
only where the new system has none. -/
inductive Does (T : Tables) (e : Entry) : Emit → Prop where
  | nothing : Does T e .nothing
  | packageFile : Does T e .packageFile
  | apt : Does T e (.print (.A e.path))
  | narrowed : Does T e ⟨T.narrowed e, .zero, none⟩
  | metaOf : Does T e (T.metaOf e)
  | hold (why : Option Code) : Does T e (T.hold e why)
  | live (h : e.t = .d → T.NoDir e.path) : Does T e (T.live e)
  | block (h : T.NoDir e.path) : Does T e { Emit.nothing with block := some (e.path, true) }
  | holdBlock (why : Option Code) (h : T.NoDir e.path) : Does T e ((T.hold e why).blocking e.path)
  | after {a o : Emit} (ha : a.Silent) (ho : Does T e o) : Does T e (a.andThen o)
  | before {o a : Emit} (ho : Does T e o) (ha : a.Silent) : Does T e (o.andThen a)

theorem noDir_of_none (h : T.ns p = none) : T.NoDir p := fun n hn => by
  rw [h] at hn
  cases hn

theorem noDir_of_some (h : T.ns p = some n) (hd : n.t ≠ .d) : T.NoDir p :=
  fun n' hn => by
    rw [h] at hn
    cases hn
    exact hd

theorem silent_save (p : Text) : (T.save p).Silent := by
  rw [save]
  split
  · exact Emit.silent_print rfl
  · split
    · exact ⟨fun l hl => by rw [mem_singleton.1 hl]; rfl, rfl⟩
    · exact ⟨fun _ hl => (nomatch hl), rfl⟩

theorem Does.replace (h : e.t = .d → T.NoDir e.path) :
    T.Does e (((T.save e.path).andThen (T.live e)).andThen (.print (.r .u e.path))) :=
  .before (.after (silent_save _) (.live h)) (Emit.silent_print rfl)

theorem plain_eq (h : e.t.plain ≠ .d) : e.plain = e := by
  obtain ⟨t, mode, uid, gid, size, blocks, path⟩ := e
  cases t with
  | m => exact absurd rfl h
  | f | d | l | c | b | p | s => rfl

theorem noDir_of_plain_ne (h : e.t.plain ≠ .d) : e.t = .d → T.NoDir e.path := fun hd => by
  rw [hd] at h
  exact absurd rfl h

theorem does_fallback : T.Does e.plain (T.fallback S e) := by
  rw [fallback]
  split
  · split
    · rename_i hns
      have hno : T.NoDir e.plain.path := noDir_of_none hns
      split_ifs
      · exact .apt
      · exact .nothing
      · exact .holdBlock (some .f) hno
      · exact .live fun _ => hno
    · rename_i n hns
      split_ifs with hd
      · exact .nothing
      · exact .after (Emit.silent_print rfl) (.live fun _ => noDir_of_some hns hd)
      · exact .holdBlock (some .i) (noDir_of_some hns hd)
  · rename_i ht
    have hlive := noDir_of_plain_ne (T := T) ht
    rw [plain_eq ht]
    split
    · split_ifs
      · exact .apt
      · exact .live hlive
      · exact .packageFile
      · exact .hold (some .f)
      · exact .live hlive
    · split_ifs
      · exact .narrowed
      · exact .nothing
      · exact .hold (some .i)
      · exact .live hlive
      · exact .hold (some .f)

theorem does_directoryEntry (st : State) : T.Does e (T.directoryEntry st e) := by
  rw [directoryEntry]
  split
  · rename_i hns
    split_ifs
    · exact .live fun _ => noDir_of_none hns
    · exact .nothing
  · rename_i n hns
    split_ifs with hd
    · exact .before (.after ((silent_save _).andThen (Emit.silent_print rfl))
        (.live fun _ => noDir_of_some hns hd)) (Emit.silent_print rfl)
    · exact .holdBlock (some .i) (noDir_of_some hns hd)
    · exact .block (noDir_of_some hns hd)
    · exact .metaOf
    · exact .nothing

theorem does_newEntry (h : e.t = .d → T.NoDir e.path) : T.Does e (T.newEntry S e) := by
  rw [newEntry]
  split
  · split_ifs
    · exact .live h
    · exact .packageFile
    · exact .live h
  · split_ifs
    · exact .nothing
    · exact .packageFile
    · exact .nothing
    · exact .hold (some .i)
    · exact .replace h

theorem does_changedEntry (h : e.t = .d → T.NoDir e.path) : T.Does e (T.changedEntry S e) := by
  rw [changedEntry]
  split
  · exact .nothing
  · split
    · split
      · exact .nothing
      · exact .hold (some .i)
    · split
      · exact .before (.live h) (Emit.silent_print rfl)
      · split_ifs
        · exact .nothing
        · exact .before (.after (Emit.silent_print rfl) (.live h)) (Emit.silent_print rfl)
        · exact .hold (some .i)
        · exact .live h
        · exact .replace h

theorem does_withManifest : T.Does e.plain (T.withManifest S e) := by
  rw [withManifest]
  split
  · exact does_directoryEntry _
  · rename_i ht
    have hlive := noDir_of_plain_ne (T := T) ht
    rw [plain_eq ht]
    split
    · exact .nothing
    · exact .metaOf
    · split_ifs
      · exact .apt
      · exact does_newEntry hlive
    · split_ifs
      · exact .nothing
      · exact .hold (some .i)
      · exact does_changedEntry hlive

def About (ls : List Line) (p : Text) : Prop := ∀ l ∈ ls, ∀ q, l.about = some q → q = p

theorem About.append {ls ls' : List Line} (h : About ls p) (h' : About ls' p) :
    About (ls ++ ls') p := fun l hl => (mem_append.1 hl).elim (h l) (h' l)

theorem about_nil : About [] p := fun _ hl => nomatch hl

theorem about_silent {a : Emit} (h : a.Silent) (p : Text) : About a.lines p := fun l hl q hq => by
  rw [h.lines l hl] at hq
  cases hq

theorem about_single {l : Line} (h : l.about = some p) : About [l] p := fun l' hl q hq => by
  rw [mem_singleton.1 hl, h] at hq
  cases hq
  rfl

theorem about_narrowed : About (T.narrowed e) e.path := by
  rw [narrowed]
  split
  · exact about_nil
  · split
    · exact about_single rfl
    · exact about_nil

theorem about_hold (why : Option Code) : About (T.hold e why).lines e.path := by
  have hwhy : About (why.toList.map fun c => .r c e.path) e.path := fun l hl q hq => by
    obtain ⟨c, -, rfl⟩ := mem_map.1 hl
    cases hq
  exact (about_single (l := .H e.path) rfl).append (hwhy.append about_narrowed)

theorem about_live : About (T.live e).lines e.path := by
  rw [live]
  split
  · split
    · exact about_hold (some .o)
    · exact about_hold (some .o)
  · split
    · exact about_single rfl
    · exact about_single rfl

theorem about_metaOf : About (T.metaOf e).lines e.path := by
  rw [metaOf]
  split
  · exact about_nil
  · split_ifs
    · exact about_nil
    · exact about_single rfl
    · exact about_single rfl
    · exact about_silent (Emit.silent_print rfl) _
    · exact about_nil

theorem Does.about (h : T.Does e o) : About o.lines e.path := by
  induction h with
  | nothing | packageFile | block => exact about_nil
  | apt => exact about_single rfl
  | narrowed => exact about_narrowed
  | metaOf => exact about_metaOf
  | hold why | holdBlock why => exact about_hold why
  | live => exact about_live
  | after ha _ ih => exact (about_silent ha _).append ih
  | before _ ha ih => exact ih.append (about_silent ha _)

theorem about_emitted (block : Option (Text × Bool)) : About (T.emitted S block e) e.path := by
  have hfresh : About (T.freshLines S e) e.path := by
    rw [freshLines]
    split_ifs
    · exact about_nil
    · exact does_fallback.about
    · exact does_withManifest.about
  rcases block with _ | ⟨b, pending⟩
  · exact hfresh
  · rw [emitted]
    split_ifs
    · rw [blockedLines]
      split_ifs
      · exact (about_silent (Emit.silent_print rfl) _).append (about_hold none)
      · exact about_nil.append (about_hold none)
      · exact about_nil
    · exact hfresh

theorem silent_pair (p : Text) (c : Code) : ∀ l ∈ [Line.R p, .r c p], l.about = none := by
  simp [Line.about]

theorem about_ending (r : Run) : ∀ l ∈ T.ending r, l.about = none := by
  intro l hl
  simp only [ending, mem_append] at hl
  rcases hl with (((hl | hl) | hl) | hl) | hl
  · obtain ⟨p, -, hl⟩ := mem_flatMap.1 hl
    rw [deleted] at hl
    split_ifs at hl
    · cases hl
    · exact silent_pair p _ l hl
    · rw [mem_singleton.1 hl]
      rfl
  · obtain ⟨a, -, rfl⟩ := mem_map.1 hl
    rfl
  · obtain ⟨p, -, hl⟩ := mem_flatMap.1 hl
    rw [linkLines] at hl
    split_ifs at hl
    · rw [mem_singleton.1 hl]
      rfl
    · rw [mem_singleton.1 hl]
      rfl
    · exact silent_pair p _ l hl
    · cases hl
  · obtain ⟨e, -, hl⟩ := mem_flatMap.1 hl
    rw [sudoLines] at hl
    split_ifs at hl
    · exact silent_pair e.path _ l hl
    · cases hl
  · simp only [mem_cons, not_mem_nil, or_false] at hl
    rcases hl with rfl | rfl | rfl | rfl <;> rfl

/-- What cannot be there is no directory of the new system. -/
def Blocking (T : Tables) (block : Option (Text × Bool)) : Prop :=
  ∀ d pending, block = some (d, pending) → T.NoDir d

theorem blocking_none : T.Blocking none := fun _ _ h => nomatch h

theorem blocking_some {d : Text} {pending : Bool} (h : T.NoDir d) :
    T.Blocking (some (d, pending)) := by
  intro d' _ hd
  cases hd
  exact h

theorem blocking_live (h : e.t = .d → T.NoDir e.path) : T.Blocking (T.live e).block := by
  rw [live]
  split
  · split
    · rename_i hd
      exact blocking_some (h hd)
    · exact blocking_none
  · split
    · exact blocking_none
    · exact blocking_none

theorem block_metaOf : (T.metaOf e).block = none := by
  rw [metaOf]
  split
  · rfl
  · split_ifs
    all_goals rfl

theorem Does.blocking (h : T.Does e o) : T.Blocking o.block := by
  induction h with
  | nothing | packageFile | apt | narrowed | hold => exact blocking_none
  | metaOf =>
    rw [block_metaOf]
    exact blocking_none
  | live h => exact blocking_live h
  | block h | holdBlock _ h => exact blocking_some h
  | @after a o ha _ ih =>
    show T.Blocking (o.block <|> a.block)
    rw [ha.block]
    rcases hb : o.block with _ | b
    · exact blocking_none
    · rw [hb] at ih
      exact ih
  | @before o a _ ha ih =>
    show T.Blocking (a.block <|> o.block)
    rw [ha.block]
    exact ih

theorem Blocking.fresh (r : Run) : T.Blocking (T.fresh S r e).block := by
  rw [Tables.fresh]
  split
  · exact blocking_none
  · dsimp only
    split
    · exact does_fallback.blocking
    · exact does_withManifest.blocking

theorem Blocking.step {r : Run} (h : T.Blocking r.block) : T.Blocking (T.step S r e).block := by
  rw [Tables.step]
  split
  · rename_i b pending hb
    split
    · rw [blocked]
      split
      · exact blocking_some (h b pending hb)
      · exact h
    · exact .fresh r
  · exact .fresh r

theorem blocking_runOver (es : List Entry) : T.Blocking (T.runOver S es).block :=
  foldlRecOn es (T.step S) (motive := fun r => T.Blocking r.block) blocking_none
    fun _ h _ _ => h.step

theorem emitted_eq_freshLines {block : Option (Text × Bool)} (hb : T.Blocking block)
    (hn : T.ns e.path = some n) : T.emitted S block e = T.freshLines S e := by
  rcases block with _ | ⟨b, pending⟩
  · rfl
  · rw [emitted]
    refine if_neg fun hbelow => ?_
    have habove : b ∈ above n.path := by
      rw [Awk.key_of_last? hn]
      exact mem_above_of_below hbelow
    obtain ⟨d, hd, rfl, hdir⟩ := T.new.tree n (Awk.mem_of_last? hn) b habove
    exact hb d.path pending rfl d (Awk.last?_of_mem T.new.nodup hd) hdir

/-! ## Modes -/

end Tables

/-- The line leaves a file with its mode: it gives it that mode, or carries the file itself. -/
def Line.keepsMode (e : Entry) : Line → Bool
  | .M mode _ _ q => q = e.path && mode = e.mode
  | .L q | .V q | .A q => q = e.path
  | _ => false

theorem Line.about_of_keepsMode {e : Entry} {l : Line} (h : l.keepsMode e) :
    l.about = some e.path := by
  cases l with
  | L q | V q | A q => exact congrArg some (of_decide_eq_true h)
  | M mode uid gid q =>
    rw [Line.keepsMode, Bool.and_eq_true] at h
    exact congrArg some (of_decide_eq_true h.1)
  | H q | S q | R q | r c q | n k q | c k q => cases h

def KeepsMode (ls : List Line) (e : Entry) : Prop := ∃ l ∈ ls, l.keepsMode e

namespace KeepsMode

variable {a b : Emit} {e : Entry}

theorem left (h : KeepsMode a.lines e) (b : Emit) : KeepsMode (a.andThen b).lines e := by
  obtain ⟨l, hl, hk⟩ := h
  exact ⟨l, mem_append_left _ hl, hk⟩

theorem right (h : KeepsMode b.lines e) (a : Emit) : KeepsMode (a.andThen b).lines e := by
  obtain ⟨l, hl, hk⟩ := h
  exact ⟨l, mem_append_right _ hl, hk⟩

end KeepsMode

theorem keepsMode_nil_iff {e : Entry} : KeepsMode [] e ↔ false := by
  refine iff_of_false ?_ Bool.false_ne_true
  rintro ⟨l, hl, -⟩
  cases hl

/-- A file of both systems whose mode is narrower in the old one, and that no package has. -/
structure Tables.Closed (T : Tables) (e n : Entry) : Prop where
  mem : e ∈ T.old.lines
  new : T.ns e.path = some n
  file : e.t = .f
  newFile : n.t = .f
  notNever : never T.kind e.path = false
  notOther : other e.path = false
  notOwned : T.isOwned e.path = false
  notPackaged : T.sums.pksame e.path = false
  narrower : Narrower e.mode n.mode

def Tables.modeKept (T : Tables) (e : Entry) : Bool :=
  if T.fb then T.sameAsNew T.all e || !vendor T.kind e.path
  else
    match T.state T.all.so e with
    | .same => false
    | .attrs => true
    | .new => aptsrc e.path || (!vendor T.kind e.path && !T.sameAsNew T.all e)
    | .mod => !T.sameAsNew T.all e

namespace Tables.Closed

variable {T : Tables} {e n : Entry} {S : Sums}

section

variable (h : T.Closed e n)

include h

theorem skipped : T.skipped e = false := by
  rw [Tables.skipped, h.file, h.notNever, h.notOther]
  rfl

theorem ofPackage : T.ofPackage e.path = false := by
  rw [Tables.ofPackage, h.notOwned, Bool.false_and]

theorem keepsMode_narrowed : KeepsMode (T.narrowed e) e := by
  rw [narrowed, h.new]
  dsimp only
  rw [if_pos ⟨h.file, h.newFile, (narrower_iff ..).2 h.narrower⟩]
  exact ⟨_, mem_cons_self, by simp [Line.keepsMode]⟩

theorem keepsMode_hold (why : Option Code) : KeepsMode (T.hold e why).lines e := by
  obtain ⟨l, hl, hk⟩ := h.keepsMode_narrowed
  exact ⟨l, mem_append_right _ hl, hk⟩

theorem keepsMode_live : KeepsMode (T.live e).lines e := by
  rw [live]
  split
  · split
    · exact h.keepsMode_hold (some .o)
    · exact h.keepsMode_hold (some .o)
  · split
    · exact ⟨_, mem_cons_self, decide_eq_true rfl⟩
    · exact ⟨_, mem_cons_self, decide_eq_true rfl⟩

theorem keepsMode_metaOf : KeepsMode (T.metaOf e).lines e := by
  have hM : ∀ uid gid, KeepsMode (Emit.print (.M e.mode uid gid e.path)).lines e := fun uid gid =>
    ⟨_, mem_cons_self, by simp [Line.keepsMode]⟩
  have htype : ¬ (e.t = .l ∨ n.t ≠ e.t) := by
    rw [h.file, h.newFile]
    decide
  rw [metaOf, h.new]
  dsimp only
  rw [if_neg htype]
  split
  · exact hM ..
  · rw [if_pos ((narrower_iff ..).2 h.narrower)]
    exact hM ..

theorem newEntry_iff : KeepsMode (T.newEntry S e).lines e ↔
    (!vendor T.kind e.path && !T.sameAsNew S e) := by
  rw [newEntry, h.new]
  dsimp only
  rw [h.ofPackage, if_neg Bool.false_ne_true]
  cases vendor T.kind e.path with
  | true => exact keepsMode_nil_iff
  | false =>
    cases T.sameAsNew S e with
    | true => exact keepsMode_nil_iff
    | false =>
      refine iff_of_true ?_ rfl
      rw [if_neg Bool.false_ne_true, if_neg Bool.false_ne_true]
      split
      · exact h.keepsMode_hold (some .i)
      · exact (h.keepsMode_live.right _).left _

theorem changedEntry_iff (hpk : S.pksame e.path = false) :
    KeepsMode (T.changedEntry S e).lines e ↔ (!T.sameAsNew S e) := by
  rw [changedEntry, hpk, if_neg Bool.false_ne_true, h.new]
  dsimp only
  cases T.sameAsNew S e with
  | true =>
    split
    · exact keepsMode_nil_iff
    · exact keepsMode_nil_iff
  | false =>
    refine iff_of_true ?_ rfl
    split
    · exact h.keepsMode_hold (some .i)
    · rw [if_neg Bool.false_ne_true, h.newFile, if_neg (by decide)]
      split
      · exact h.keepsMode_live
      · exact (h.keepsMode_live.right _).left _

theorem fallback_iff (hpk : S.pksame e.path = false) :
    KeepsMode (T.fallback S e).lines e ↔ (T.sameAsNew S e || !vendor T.kind e.path) := by
  rw [fallback, h.file, if_neg (by decide), h.new]
  dsimp only
  rw [hpk, Bool.or_false, h.newFile]
  cases T.sameAsNew S e with
  | true => exact iff_of_true h.keepsMode_narrowed rfl
  | false =>
    rw [if_neg Bool.false_ne_true]
    cases vendor T.kind e.path with
    | true => exact keepsMode_nil_iff
    | false =>
      refine iff_of_true ?_ rfl
      rw [if_neg Bool.false_ne_true, if_neg (by decide)]
      split
      · exact h.keepsMode_live
      · exact h.keepsMode_hold (some .f)

theorem withManifest_iff (hpk : S.pksame e.path = false) :
    KeepsMode (T.withManifest S e).lines e ↔ (match T.state S.so e with
        | .same => false
        | .attrs => true
        | .new => aptsrc e.path || (!vendor T.kind e.path && !T.sameAsNew S e)
        | .mod => !T.sameAsNew S e) := by
  rw [withManifest, h.file, if_neg (by decide)]
  cases T.state S.so e with
  | same => exact keepsMode_nil_iff
  | attrs => exact iff_of_true h.keepsMode_metaOf rfl
  | new =>
    cases aptsrc e.path with
    | true => exact iff_of_true ⟨_, mem_cons_self, decide_eq_true rfl⟩ rfl
    | false => exact h.newEntry_iff
  | mod =>
    cases aptsrc e.path with
    | true =>
      dsimp only
      cases T.sameAsNew S e with
      | true => exact keepsMode_nil_iff
      | false => exact iff_of_true (h.keepsMode_hold (some .i)) rfl
    | false => exact h.changedEntry_iff hpk

theorem freshLines_iff : KeepsMode (T.freshLines T.sums e) e ↔ T.modeKept e := by
  rw [freshLines, h.skipped, if_neg Bool.false_ne_true, modeKept]
  cases hfb : T.fb with
  | true =>
    rw [if_pos rfl, if_pos rfl, h.fallback_iff h.notPackaged,
      sameAsNew_sums h.mem h.skipped (.inl hfb)]
  | false =>
    rw [if_neg Bool.false_ne_true, if_neg Bool.false_ne_true, h.withManifest_iff h.notPackaged,
      state_sums hfb h.mem h.skipped]
    cases hst : T.state T.all.so e with
    | same | attrs => rfl
    | new => rw [sameAsNew_sums h.mem h.skipped (.inr (.inl hst))]
    | mod => rw [sameAsNew_sums h.mem h.skipped (.inr (.inr hst))]

end

end Tables.Closed

/-- **A narrowed mode stays narrowed**, with a manifest and without, for all tables and both scans,
of every file of both systems that no package has and whose permission bits in the old system are
some of those in the new one, exactly when: without a manifest, its content is that of the new
system or it is no file of the device itself; with one, only its owner or mode was changed, or it
was changed and its content is not that of the new system, or it is not of the image, its content is
not that of the new system and it is no file of the device itself (or it is an apt source). -/
theorem mode_kept_iff (T : Tables) (e n : Entry) (h : T.Closed e n) :
    (∃ l ∈ T.plan, l.keepsMode e) ↔ T.modeKept e := by
  rw [← h.freshLines_iff]
  have hfresh : ∀ pre, T.emitted T.sums (T.runOver T.sums pre).block e = T.freshLines T.sums e :=
    fun pre => Tables.emitted_eq_freshLines (Tables.blocking_runOver pre) h.new
  constructor
  · rintro ⟨l, hl, hk⟩
    have habout := Line.about_of_keepsMode hk
    rcases mem_append.1 hl with hl | hl
    · -- no other entry has lines about this path
      obtain ⟨pre, e', post, hold, hl⟩ := Tables.mem_runOver.1 hl
      have hmem : e' ∈ T.old.lines := by rw [hold]; exact mem_append_right _ mem_cons_self
      obtain rfl := inj_on_of_nodup_map T.old.nodup h.mem hmem
        (Tables.about_emitted _ l hl _ habout)
      rw [hfresh pre] at hl
      exact ⟨l, hl, hk⟩
    · rw [Tables.about_ending _ l hl] at habout
      cases habout
  · rintro ⟨l, hl, hk⟩
    obtain ⟨pre, post, hold⟩ := append_of_mem h.mem
    rw [← hfresh pre] at hl
    exact ⟨l, mem_append_left _ (Tables.mem_runOver.2 ⟨pre, e, post, hold, hl⟩), hk⟩

/-! ## Examples -/

/-- A system with a setting that only root may read. -/
def closedScan : Scan :=
  ⟨[sampleDir "etc", sampleFile 0o600 "etc/a"], by decide +kernel, by decide +kernel⟩

/-- The same, with a setting that all may read. -/
def readScan : Scan :=
  ⟨[sampleDir "etc", sampleFile 0o644 "etc/a"], by decide +kernel, by decide +kernel⟩

/-- The line of the setting in the manifest. -/
def sampleImage (hash : Text) : Image := ⟨.f, 0o644, 0, 0, 1, hash, "etc/a"⟩

theorem closed_sample (image : Option (List Image)) (hashNew : Text) :
    (sampleTables image closedScan readScan hashNew).Closed (sampleFile 0o600 "etc/a")
      (sampleFile 0o644 "etc/a") where
  mem := mem_cons_of_mem _ mem_cons_self
  new := Awk.last?_of_mem readScan.nodup (.tail _ mem_cons_self)
  file := rfl
  newFile := rfl
  notNever := by
    show never .openwrt _ = false
    decide +kernel
  notOther := other_setting
  notOwned := rfl
  notPackaged := Tables.pksame_of_packaged rfl
  narrower := (narrower_iff ..).1 (by decide)

/-- The user changed the mode alone. -/
theorem mode_kept_sample :
    ∃ l ∈ (sampleTables (some [sampleImage ['1']]) closedScan readScan ['2']).plan,
      l.keepsMode (sampleFile 0o600 "etc/a") :=
  (mode_kept_iff _ _ _ (closed_sample (some [sampleImage ['1']]) ['2'])).2 (by decide +kernel)

/-- The user changed the mode, and the content to what the new release has: with a manifest the mode
is that of the release, without one it is kept. -/
theorem edited_mode_widened :
    (sampleTables (some [sampleImage ['0']]) closedScan readScan ['1']).Closed
        (sampleFile 0o600 "etc/a") (sampleFile 0o644 "etc/a") ∧
      (¬ ∃ l ∈ (sampleTables (some [sampleImage ['0']]) closedScan readScan ['1']).plan,
        l.keepsMode (sampleFile 0o600 "etc/a")) ∧
      ∃ l ∈ (sampleTables none closedScan readScan ['1']).plan,
        l.keepsMode (sampleFile 0o600 "etc/a") := by
  refine ⟨closed_sample (some [sampleImage ['0']]) ['1'], ?_, ?_⟩
  · decide +kernel
  · decide +kernel

end Mu300.Carry
