import Mu300.Lib.Forest
import Mu300.Lib.Paths

/-!
# Filling gaps

`copy_missing FROM TO` of `mu300-update`: what FROM has and TO lacks is copied, and nothing of TO is
replaced. `find` lists FROM, a directory before what is in it, and the shell goes through the lines;
`skip` is the last path whose subtree needs no more looks.

* `merged` — what TO is to be: FROM where TO has nothing, and no part of the way is anything else
  than a directory.
-/

namespace Mu300.CopyMissing

open Shell Paths List Forest

/-! ## Trees -/

/-- What is at a path, with its attributes and its content. -/
inductive Entry (α : Type) : Type where
  | dir (a : α)
  | link (a : α)
  | other (a : α)
  deriving DecidableEq

def Entry.isDir {α : Type} : Entry α → Bool
  | dir _ => true
  | _ => false

abbrev Tree (α : Type) := List Text → Option (Entry α)

/-- A directory with what is in it. -/
structure Folder (α : Type) where
  entry : Tree α
  root : (entry []).any Entry.isDir
  closed : ∀ p n, entry (p ++ [n]) ≠ none → (entry p).any Entry.isDir

variable {α : Type}

/-! ## The function -/

/-- What the function cannot know: where the links of TO lead to, and how every `cp -a` ends: well,
or with some paths copied. -/
structure Outside where
  /-- there is something at the end of the link -/
  leads : List Text → Bool
  /-- it is a directory -/
  leadsToDir : List Text → Bool
  cp : List Text → Option (List Text → Bool)

structure State (α : Type) where
  skip : Text
  dst : Tree α
  ok : Bool
  /-- the paths of TO that were looked at or written, the newest first -/
  log : List (List Text)

variable (o : Outside) (dst : Tree α) (p : List Text)

/-- `[ -e TO/p ]`. -/
def isE : Bool :=
  match dst p with
  | none => false
  | some (.link _) => o.leads p
  | some _ => true

/-- `[ -L TO/p ]`. -/
def isL : Bool :=
  match dst p with
  | some (.link _) => true
  | _ => false

/-- `[ -d TO/p ]`. -/
def isD : Bool :=
  match dst p with
  | some (.dir _) => true
  | some (.link _) => o.leadsToDir p
  | _ => false

/-- `cp -a FROM/p TO/p`, as far as it came. -/
def graft (src : Forest Text (Entry α)) (p : List Text) (keeps : List Text → Bool) (dst : Tree α) :
    Tree α :=
  fun r => if p.isPrefixOf r && keeps r then src.find r else dst r

/-- A path as `find .` prints it. -/
def printed (p : List Text) : Text := '.' :: slashed p

/-- `find . ! -name .` in FROM. -/
def listing (src : Forest Text (Entry α)) : Text := src.walk.flatMap fun x => line (printed x.1)

/-- `while IFS= read -r p`: every line that has an end. -/
def readLines (t : Text) : List Text := (lines t).dropLast

def State.copy (o : Outside) (src : Forest Text (Entry α)) (p : List Text) (l : Text)
    (s : State α) : State α :=
  match o.cp p with
  | none => { s with log := p :: s.log, skip := l, dst := graft src p (fun _ => true) s.dst }
  | some keeps => { s with log := p :: s.log, ok := false, dst := graft src p keeps s.dst }

def visit (o : Outside) (src : Forest Text (Entry α)) (s : State α) (l : Text) : State α :=
  if !s.ok then s
  else if (s.skip ++ ['/']).isPrefixOf l then s
  else
    let p := resolve l
    if isE o s.dst p || isL s.dst p then
      if isD o s.dst p && !isL s.dst p then { s with log := p :: s.log }
      else { s with log := p :: s.log, skip := l }
    else s.copy o src p l

/-- `copy_missing FROM TO`; FROM may be no directory. -/
def copyMissing (o : Outside) (src : Option (Forest Text (Entry α))) (dst : Folder α) : State α :=
  match src with
  | none => ⟨[], dst.entry, false, []⟩
  | some src => (readLines (listing src)).foldl (visit o src) ⟨[], dst.entry, true, []⟩

/-! ## What TO is to be -/

/-- Something on the way to a path is not a directory. -/
def blocked (r : List Text) : Bool :=
  (range r.length).any fun i => (dst (r.take i)).any fun e => !e.isDir

def merged (src : Forest Text (Entry α)) (r : List Text) : Option (Entry α) :=
  if (dst r).isSome then dst r else if blocked dst r then none else src.find r

/-- All directories on the way to a path are there, and are directories. -/
def Reached (r : List Text) : Prop := ∀ i < r.length, (dst (r.take i)).any Entry.isDir

section Facts

variable {o : Outside} {dst : Tree α} {p q r : List Text} {n : Text}

theorem present_iff : (isE o dst p || isL dst p) = (dst p).isSome := by
  rcases h : dst p with _ | a | a | a <;> simp [isE, isL, h]

theorem real_iff : (isD o dst p && !isL dst p) = (dst p).any Entry.isDir := by
  rcases h : dst p with _ | a | a | a <;> simp [isD, isL, h, Entry.isDir]

theorem Folder.none_below (t : Folder α) (hp : (t.entry p).any Entry.isDir = false)
    (q : List Text) : t.entry (p ++ n :: q) = none := by
  -- the last name of the path that has something above it
  induction q using reverseRecOn with
  | nil =>
    by_contra h
    rw [t.closed p n h] at hp
    cases hp
  | append_singleton q m ih =>
    by_contra h
    have hdir := t.closed (p ++ n :: q) m (by simpa using h)
    rw [ih] at hdir
    cases hdir

theorem Folder.none_of_gap (t : Folder α) (hp : t.entry p = none) (q : List Text) :
    t.entry (p ++ q) = none := by
  cases q with
  | nil => rw [append_nil, hp]
  | cons n q => exact t.none_below (by rw [hp]; rfl) q

theorem Reached.snoc (h : Reached dst q) (hq : (dst q).any Entry.isDir) (n : Text) :
    Reached dst (q ++ [n]) := by
  intro i hi
  rw [length_append, length_singleton, Nat.lt_succ_iff] at hi
  rw [take_append_of_le_length hi]
  rcases Nat.lt_or_eq_of_le hi with hi | rfl
  · exact h i hi
  · rwa [take_length]

theorem blocked_below (hp : (dst p).any fun e => !e.isDir) (n : Text) (q : List Text) :
    blocked dst (p ++ n :: q) := by
  rw [blocked, any_eq_true]
  refine ⟨p.length, by simp, ?_⟩
  rwa [take_left]

theorem not_blocked_of_gap (t : Folder α) (h : Reached t.entry p) (hp : t.entry p = none)
    (q : List Text) : blocked t.entry (p ++ q) = false := by
  rw [blocked, any_eq_false]
  intro i _
  rcases Nat.lt_or_ge i p.length with hi | hi
  · rw [take_append_of_le_length hi.le]
    have hdir := h i hi
    rcases ht : t.entry (p.take i) with _ | e
    · simp
    · rw [ht] at hdir
      simpa using hdir
  · have hnone : t.entry ((p ++ q).take i) = none := by
      rw [take_append, take_of_length_le hi]
      exact t.none_of_gap hp _
    rw [hnone]
    simp

end Facts

/-! ## One line -/

/-- What a name can be here: no newline, since the paths are read by lines. -/
structure Name (n : Text) : Prop extends Plain n where
  newline : '\n' ∉ n

section Visit

variable {o : Outside} {src : Forest Text (Entry α)} {s : State α} {p k : List Text}

theorem visit_below (hskip : s.skip = printed k) (n : Text) (q : List Text) :
    visit o src s (printed (k ++ n :: q)) = s := by
  have hbelow : (s.skip ++ ['/']).isPrefixOf (printed (k ++ n :: q)) := by
    rw [hskip, isPrefixOf_iff_prefix, printed, printed, slashed_append, slashed_cons]
    exact ⟨n ++ slashed q, by simp⟩
  rw [visit, if_pos hbelow, ite_self]

/-- The path that is skipped does not have this one below it. -/
def Clear (skip : Text) (p : List Text) : Prop :=
  skip = [] ∨ ∃ k, skip = printed k ∧ (∀ n ∈ k, '/' ∉ n) ∧ ∀ n q, p ≠ k ++ n :: q

theorem Clear.not_below {skip : Text} (h : Clear skip p) (hp : ∀ n ∈ p, Name n) :
    (skip ++ ['/']).isPrefixOf (printed p) = false := by
  rw [Bool.eq_false_iff, Ne, isPrefixOf_iff_prefix]
  intro hbelow
  rcases h with rfl | ⟨k, rfl, hk, hnot⟩
  · cases (cons_prefix_cons.1 hbelow).1
  · obtain ⟨n, q, hpq⟩ :=
      (slashed_below_iff hk fun n hn => (hp n hn).slash).1 (cons_prefix_cons.1 hbelow).2
    exact hnot n q hpq

theorem visit_clear (hok : s.ok) (hclear : Clear s.skip p) (hp : ∀ n ∈ p, Name n) :
    visit o src s (printed p) = if (s.dst p).isSome then
        if (s.dst p).any Entry.isDir then { s with log := p :: s.log }
        else { s with log := p :: s.log, skip := printed p }
      else s.copy o src p (printed p) := by
  have hresolve : resolve (printed p) = p := resolve_slashed fun n hn => (hp n hn).toPlain
  rw [visit, hok, hclear.not_below hp]
  dsimp only
  rw [hresolve, present_iff, real_iff]
  rfl

end Visit

/-! ## Parts of FROM -/

/-- With the paths of `R` done, from `s` to `s'`. -/
structure Done (o : Outside) (t : Folder α) (src : Forest Text (Entry α)) (R : List Text → Prop)
    (s s' : State α) : Prop where
  frame : ∀ r, ¬ R r → s'.dst r = s.dst r
  gaps : ∀ r, s'.dst r = s.dst r ∨ s'.dst r = merged t.entry src r
  full : s'.ok → ∀ r, R r → s'.dst r = merged t.entry src r
  skip : s'.skip = s.skip ∨ ∃ k, R k ∧ s'.skip = printed k ∧ ∀ n ∈ k, '/' ∉ n
  log : ∀ p ∈ s'.log, p ∈ s.log ∨ Reached t.entry p
  ok : s'.ok → s.ok
  works : (∀ p, o.cp p = none) → s.ok → s'.ok

namespace Done

variable {o : Outside} {t : Folder α} {src : Forest Text (Entry α)} {R R' : List Text → Prop}
  {s s' s'' : State α}

theorem of_failed (h : s.ok = false) : Done o t src R s s :=
  ⟨fun _ _ => rfl, fun _ => .inl rfl,
    fun hok => absurd (h.symm.trans hok) Bool.false_ne_true, .inl rfl,
    fun _ hp => .inl hp, id, fun _ => id⟩

theorem trans (h : Done o t src R s s') (h' : Done o t src R' s' s'') :
    Done o t src (fun r => R r ∨ R' r) s s'' where
  frame r hr := by
    rw [not_or] at hr
    rw [h'.frame r hr.2, h.frame r hr.1]
  gaps r := by
    rcases h'.gaps r with hr | hr
    · rw [hr]
      exact h.gaps r
    · exact .inr hr
  full hok r hr := by
    by_cases hr' : R' r
    · exact h'.full hok r hr'
    · rw [h'.frame r hr']
      exact h.full (h'.ok hok) r (hr.resolve_right hr')
  skip := by
    rcases h'.skip with hs | ⟨k, hk, hs⟩
    · rw [hs]
      exact h.skip.imp_right fun ⟨k, hk, hs⟩ => ⟨k, .inl hk, hs⟩
    · exact .inr ⟨k, .inr hk, hs⟩
  log p hp := by
    rcases h'.log p hp with hp | hp
    · exact h.log p hp
    · exact .inr hp
  ok hok := h.ok (h'.ok hok)
  works hcp hok := h'.works hcp (h.works hcp hok)

theorem enlarge (h : Done o t src R s s') (hR : ∀ r, R r → R' r)
    (hdone : ∀ r, R' r → ¬ R r → s.dst r = merged t.entry src r) : Done o t src R' s s' where
  frame r hr := h.frame r fun hr' => hr (hR r hr')
  gaps := h.gaps
  full hok r hr := by
    by_cases hr' : R r
    · exact h.full hok r hr'
    · rw [h.frame r hr', hdone r hr hr']
  skip := h.skip.imp_right fun ⟨k, hk, hs⟩ => ⟨k, hR k hk, hs⟩
  log := h.log
  ok := h.ok
  works := h.works

end Done

section Walk

variable {o : Outside} {t : Folder α} {src f : Forest Text (Entry α)} {s : State α}
  {p q : List Text}

def Below (p r : List Text) : Prop := ∃ x, r = p ++ x

/-- The paths of a part of FROM, in the directory `q`. -/
def Under (q : List Text) (f : Forest Text (Entry α)) (r : List Text) : Prop :=
  ∃ n ∈ f.names, Below (q ++ [n]) r

def linesOf (q : List Text) (f : Forest Text (Entry α)) : List Text :=
  f.walk.map fun x => printed (q ++ x.1)

theorem linesOf_cons (q : List Text) (n : Text) (e : Entry α) (below rest : Forest Text (Entry α)) :
    linesOf q (.cons n e below rest) =
      printed (q ++ [n]) :: (linesOf (q ++ [n]) below ++ linesOf q rest) := by
  simp [linesOf, walk]

theorem foldl_below (hskip : s.skip = printed p) (f : Forest Text (Entry α)) :
    (linesOf p f).foldl (visit o src) s = s := by
  refine foldlRecOn (motive := (· = s)) _ _ rfl fun s' hs l hl => ?_
  obtain ⟨x, hx, rfl⟩ := mem_map.1 hl
  obtain ⟨n, -, r, hr⟩ := exists_of_mem_walk hx
  rw [hs, hr]
  exact visit_below hskip n r

theorem foldl_failed (h : s.ok = false) (ls : List Text) : ls.foldl (visit o src) s = s := by
  refine foldlRecOn (motive := (· = s)) ls _ rfl fun s' hs l _ => ?_
  rw [hs, visit, h]
  rfl

theorem graft_of_below (keeps : List Text → Bool) {r : List Text} (hr : Below p r) (dst : Tree α) :
    graft src p keeps dst r = if keeps r then src.find r else dst r := by
  obtain ⟨x, rfl⟩ := hr
  rw [graft, isPrefixOf_iff_prefix.2 ⟨x, rfl⟩, Bool.true_and]

theorem graft_of_not_below (keeps : List Text → Bool) {r : List Text} (hr : ¬ Below p r)
    (dst : Tree α) : graft src p keeps dst r = dst r := by
  have hnot : p.isPrefixOf r = false := by
    rw [Bool.eq_false_iff]
    intro h
    obtain ⟨x, hx⟩ := isPrefixOf_iff_prefix.1 h
    exact hr ⟨x, hx.symm⟩
  rw [graft, hnot]
  rfl

section

variable (hreach : Reached t.entry p) (hp : ∀ n ∈ p, Name n)
  (hsame : ∀ r, Below p r → s.dst r = t.entry r)

include hreach

theorem reached_of_mem_cons {r : List Text} (hr : r ∈ p :: s.log) :
    r ∈ s.log ∨ Reached t.entry r := by
  rcases mem_cons.1 hr with rfl | hr
  · exact .inr hreach
  · exact .inl hr

include hp hsame in
theorem done_other (hsome : (s.dst p).isSome) (hdir : (s.dst p).any Entry.isDir = false) :
    Done o t src (Below p) s { s with log := p :: s.log, skip := printed p } where
  frame _ _ := rfl
  gaps _ := .inl rfl
  full _ r hr := by
    rw [hsame p ⟨[], by simp⟩] at hsome hdir
    rw [hsame r hr, merged]
    obtain ⟨x, rfl⟩ := hr
    cases x with
    | nil => rw [append_nil, if_pos hsome]
    | cons n x =>
      have hblocked : blocked t.entry (p ++ n :: x) := by
        refine blocked_below ?_ n x
        obtain ⟨e, he⟩ := Option.isSome_iff_exists.1 hsome
        rw [he] at hdir ⊢
        simpa using hdir
      rw [t.none_below hdir x, if_neg (by simp), if_pos hblocked]
  skip := .inr ⟨p, ⟨[], by simp⟩, rfl, fun n hn => (hp n hn).slash⟩
  log _ hr := reached_of_mem_cons hreach hr
  ok := id
  works _ := id

theorem merged_of_gap (hgap : t.entry p = none) {r : List Text} (hr : Below p r) :
    merged t.entry src r = src.find r := by
  obtain ⟨x, rfl⟩ := hr
  rw [merged, t.none_of_gap hgap, if_neg (by simp), not_blocked_of_gap t hreach hgap,
    if_neg Bool.false_ne_true]

include hp hsame in
theorem done_gap (hnone : (s.dst p).isSome = false) {ok : Bool} {keeps : List Text → Bool}
    {skip : Text}
    (hkeeps : ok → ∀ r, keeps r) (hok : ok → s.ok) (hskip : skip = s.skip ∨ skip = printed p)
    (hcp : ok = false → o.cp p ≠ none) :
    Done o t src (Below p) s
      { s with log := p :: s.log, skip := skip, ok := ok, dst := graft src p keeps s.dst } := by
  have hgap : t.entry p = none := by
    rw [← hsame p ⟨[], by simp⟩]
    simpa using hnone
  refine ⟨fun r hr => graft_of_not_below keeps hr _,
    fun r => ?_, fun hdone r hr => ?_, ?_, fun r hr => ?_, hok, fun hall _ => ?_⟩
  · by_cases hr : Below p r
    · change graft src p keeps s.dst r = _ ∨ graft src p keeps s.dst r = _
      rw [graft_of_below keeps hr, merged_of_gap hreach hgap hr]
      split
      · exact .inr rfl
      · exact .inl rfl
    · exact .inl (graft_of_not_below keeps hr _)
  · change graft src p keeps s.dst r = _
    rw [graft_of_below keeps hr, if_pos (hkeeps hdone r), merged_of_gap hreach hgap hr]
  · rcases hskip with rfl | rfl
    · exact .inl rfl
    · exact .inr ⟨p, ⟨[], by simp⟩, rfl, fun n hn => (hp n hn).slash⟩
  · exact reached_of_mem_cons hreach hr
  · cases ok with
    | true => rfl
    | false => exact absurd (hall p) (hcp rfl)

theorem done_looked : Done o t src (fun _ => False) s { s with log := p :: s.log } where
  frame _ _ := rfl
  gaps _ := .inl rfl
  full _ _ hr := hr.elim
  skip := .inl rfl
  log _ hr := reached_of_mem_cons hreach hr
  ok := id
  works _ := id

include hsame in
/-- A directory that both have: what is below it in FROM was done, and FROM has nothing else
there. -/
theorem done_dir {s' : State α} (hdir : (s.dst p).any Entry.isDir)
    (hsrc : ∀ m x, src.find (p ++ m :: x) = f.find (m :: x))
    (h : Done o t src (Under p f) { s with log := p :: s.log } s') :
    Done o t src (Below p) s s' := by
  refine ((done_looked hreach).trans h).enlarge (fun r hr => ?_) fun r hr hnot => ?_
  · obtain ⟨m, -, x, rfl⟩ := hr.resolve_left id
    exact ⟨m :: x, by simp⟩
  · rw [hsame r hr, merged]
    split
    · rfl
    next hnone =>
    have hgap : t.entry r = none := by simpa using hnone
    rw [hgap]
    split
    · rfl
    · obtain ⟨x, rfl⟩ := hr
      cases x with
      | nil =>
        rw [append_nil] at hgap
        rw [hsame p ⟨[], by simp⟩, hgap] at hdir
        cases hdir
      | cons m x =>
        rw [hsrc, find_of_not_mem]
        exact fun hm => hnot (.inr ⟨m, hm, x, by simp⟩)

end

theorem eq_of_below {n m : Text} {r : List Text} (hn : Below (q ++ [n]) r)
    (hm : Below (q ++ [m]) r) : m = n := by
  obtain ⟨x, rfl⟩ := hn
  obtain ⟨y, hy⟩ := hm
  simp only [append_assoc, singleton_append, append_cancel_left_eq, List.cons.injEq] at hy
  exact hy.1.symm

/-- **The lines of a part of FROM**, in a directory that both have: by induction over the part. -/
theorem visit_walk (hnames : f.All Name) (hq : ∀ n ∈ q, Name n) (hdistinct : f.Distinct)
    (hsrc : ∀ n ∈ f.names, ∀ x, src.find (q ++ n :: x) = f.find (n :: x))
    (hreach : Reached t.entry q)
    (hdir : (t.entry q).any Entry.isDir) (hsame : ∀ r, Under q f r → s.dst r = t.entry r)
    (hclear : ∀ r, Under q f r → Clear s.skip r) (hok : s.ok) :
    Done o t src (Under q f) s ((linesOf q f).foldl (visit o src) s) := by
  induction f generalizing q s with
  | nil =>
    refine ⟨fun _ _ => rfl,
      fun _ => .inl rfl, fun _ r hr => ?_, .inl rfl, fun _ hp => .inl hp, id, fun _ => id⟩
    obtain ⟨n, hn, -⟩ := hr
    cases hn
  | cons n e below rest ihb ihr =>
    obtain ⟨hn, hnbelow, hnrest⟩ := hnames
    obtain ⟨hnew, hdbelow, hdrest⟩ := hdistinct
    have hp : ∀ m ∈ q ++ [n], Name m := forall_mem_append.2 ⟨hq, forall_mem_singleton.2 hn⟩
    have hpath : ∀ r, Below (q ++ [n]) r →
      Under q (.cons n e below rest) r := fun r hr => ⟨n, mem_cons_self, hr⟩
    have hreached := hreach.snoc hdir n
    have hself : Below (q ++ [n]) (q ++ [n]) := ⟨[], by simp⟩
    have hsub : ∀ m x, src.find (q ++ [n] ++ m :: x) = below.find (m :: x) := by
      intro m x
      rw [append_assoc, singleton_append, hsrc n mem_cons_self, find_below]
    -- the path itself, with the lines below it
    have hhead : Done o t src (Below (q ++ [n])) s
        ((linesOf (q ++ [n]) below).foldl (visit o src) (visit o src s (printed (q ++ [n])))) := by
      have hsame' : ∀ r, Below (q ++ [n]) r →
          s.dst r = t.entry r := fun r hr => hsame r (hpath r hr)
      rw [visit_clear hok (hclear _ (hpath _ hself)) hp]
      split
      · next hsome =>
        split
        · next hreal =>
          refine done_dir hreached hsame' hreal hsub
            (ihb hnbelow hp hdbelow (fun m _ x => hsub m x) hreached ?_ ?_ ?_ hok)
          · rwa [← hsame' _ hself]
          · rintro r ⟨m, -, x, rfl⟩
            exact hsame' _ ⟨m :: x, by simp⟩
          · rintro r ⟨m, -, x, rfl⟩
            exact hclear _ (hpath _ ⟨m :: x, by simp⟩)
        · next hother =>
          rw [foldl_below rfl]
          exact done_other hreached hp hsame' hsome (by simpa using hother)
      · next hnone =>
        rw [State.copy]
        split
        · rw [foldl_below rfl]
          exact done_gap hreached hp hsame' (by simpa using hnone) (fun _ _ => rfl)
            (fun _ => hok) (.inr rfl) (fun h => by rw [hok] at h; cases h)
        · next keeps hcp =>
          rw [foldl_failed rfl]
          exact done_gap hreached hp hsame' (by simpa using hnone) (by rintro ⟨⟩)
            (by rintro ⟨⟩) (.inl rfl) (fun _ => by rw [hcp]; rintro ⟨⟩)
    -- the other entries of the directory
    have hapart : ∀ r, Under q rest r → ¬ Below (q ++ [n]) r := by
      rintro r ⟨m, hm, hr⟩ hr'
      rw [eq_of_below hr' hr] at hm
      exact hnew hm
    have hmore : ∀ r, Under q rest r → Under q (.cons n e below rest) r :=
      fun r ⟨m, hm, hr⟩ => ⟨m, mem_cons_of_mem _ hm, hr⟩
    rw [linesOf_cons, foldl_cons, foldl_append]
    generalize (linesOf (q ++ [n]) below).foldl (visit o src)
      (visit o src s (printed (q ++ [n]))) = s' at hhead
    have hrest : Done o t src (Under q rest) s' ((linesOf q rest).foldl (visit o src) s') := by
      rcases hok' : s'.ok with _ | _
      · rw [foldl_failed hok']
        exact .of_failed hok'
      refine ihr hnrest hq hdrest (fun m hm x => ?_) hreach hdir (fun r hr => ?_)
        (fun r hr => ?_) hok'
      · rw [hsrc m (.tail _ hm), find_rest]
        rintro rfl
        exact hnew hm
      · rw [hhead.frame r (hapart r hr), hsame r (hmore r hr)]
      · rcases hhead.skip with hs | ⟨k, ⟨x, rfl⟩, hs, hslash⟩
        · rw [hs]
          exact hclear r (hmore r hr)
        · refine .inr ⟨_, hs, hslash, fun m y hk => hapart r hr ⟨x ++ m :: y, ?_⟩⟩
          rw [hk, append_assoc]
    refine (hhead.trans hrest).enlarge (fun r hr => hr.elim (hpath r) (hmore r)) fun r hr hnot => ?_
    obtain ⟨m, hm, hr⟩ := hr
    rcases mem_cons.1 hm with rfl | hm
    · exact absurd (.inl hr) hnot
    · exact absurd (.inr ⟨m, hm, hr⟩) hnot

end Walk

/-! ## The whole of FROM -/

variable {src : Forest Text (Entry α)}

theorem newline_not_mem_printed {p : List Text} (h : ∀ n ∈ p, Name n) : '\n' ∉ printed p := by
  intro hmem
  rcases mem_cons.1 hmem with heq | hmem
  · cases heq
  obtain ⟨n, hn, hmem⟩ := mem_flatMap.1 hmem
  rcases mem_cons.1 hmem with heq | hmem
  · cases heq
  · exact (h n hn).newline hmem

theorem readLines_listing (hnames : src.All Name) : readLines (listing src) = linesOf [] src := by
  have hlines : listing src = (linesOf [] src).flatMap line := by
    rw [listing, linesOf, flatMap_map]
    rfl
  rw [readLines, hlines, lines_flatMap_line, dropLast_concat]
  intro l hl
  obtain ⟨x, hx, rfl⟩ := mem_map.1 hl
  exact newline_not_mem_printed (hnames.walk hx)

theorem merged_of_not_under (t : Folder α) {r : List Text} (h : ¬ Under [] src r) :
    merged t.entry src r = t.entry r := by
  rw [merged]
  split
  · rfl
  next hnone =>
  rw [show t.entry r = none by simpa using hnone]
  split
  · rfl
  · cases r with
    | nil => exact find_nil src
    | cons m x => exact find_of_not_mem fun hm => h ⟨m, hm, x, rfl⟩

/-- **Gaps are filled, and only gaps.** What TO has stays, nothing comes below what is not a
directory, whatever comes is what FROM has there, and no path is looked at or written whose way
leads through anything else than directories of TO. Where every copy works the function does, and TO
is what it is to be. -/
theorem copyMissing_fills (o : Outside) (src : Forest Text (Entry α)) (hnames : src.All Name)
    (hdistinct : src.Distinct) (t : Folder α) :
    (∀ r, t.entry r ≠ none → (copyMissing o (some src) t).dst r = t.entry r) ∧
      (∀ r, blocked t.entry r → (copyMissing o (some src) t).dst r = t.entry r) ∧
      (∀ r, (copyMissing o (some src) t).dst r = t.entry r ∨ (copyMissing o (some src) t).dst r =
        src.find r) ∧
      (∀ r ∈ (copyMissing o (some src) t).log, Reached t.entry r) ∧
      ((copyMissing o (some src) t).ok →
        ∀ r, (copyMissing o (some src) t).dst r = merged t.entry src r) ∧
      ((∀ p, o.cp p = none) → (copyMissing o (some src) t).ok) := by
  have h : Done o t src (Under [] src) ⟨[], t.entry, true, []⟩ (copyMissing o (some src) t) := by
    rw [copyMissing, readLines_listing hnames]
    exact visit_walk hnames (by rintro n ⟨⟩) hdistinct (fun _ _ _ => rfl) (by rintro i ⟨⟩) t.root
      (fun _ _ => rfl) (fun _ _ => .inl rfl) rfl
  refine ⟨fun r hr => ?_,
    fun r hr => ?_, fun r => ?_, fun r hr => (h.log r hr).resolve_left (by rintro ⟨⟩),
    fun hok r => ?_, fun hcp => h.works hcp rfl⟩
  · rcases h.gaps r with hgap | hgap
    · exact hgap
    · rw [hgap, merged, if_pos (Option.isSome_iff_ne_none.2 hr)]
  · rcases h.gaps r with hgap | hgap
    · exact hgap
    · rw [hgap, merged, if_pos hr]
      split
      · rfl
      next hnone => exact (Option.not_isSome_iff_eq_none.1 hnone).symm
  · rcases h.gaps r with hgap | hgap
    · exact .inl hgap
    · rw [hgap, merged]
      split
      · exact .inl rfl
      next hnone =>
      split
      · exact .inl (Option.not_isSome_iff_eq_none.1 hnone).symm
      · exact .inr rfl
  · by_cases hr : Under [] src r
    · exact h.full hok r hr
    · rw [h.frame r hr, merged_of_not_under t hr]

/-- A directory with a link in it. -/
def withLink : Folder ℕ where
  entry p := if p = [] then some (.dir 0) else if p = [['a']] then some (.link 1) else none
  root := rfl
  closed p n h := by
    cases p with
    | nil => rfl
    | cons m p =>
      rw [cons_append, if_neg (cons_ne_nil m (p ++ [n]))] at h
      split at h
      · next heq => cases p <;> cases heq
      · exact absurd rfl h

/-- FROM has a directory where the link is, and another one. -/
def withTwo : Forest Text (Entry ℕ) :=
  .cons ['a'] (.dir 2) (.cons ['b'] (.other 3) .nil .nil)
    (.cons ['d'] (.dir 4) (.cons ['x'] (.other 5) .nil .nil) .nil)

/-- Every copy works, and every link leads to a directory. -/
def allWorks : Outside := ⟨fun _ => true, fun _ => true, fun _ => none⟩

/-- Below the link nothing is copied; the other directory is filled. -/
theorem copyMissing_fills_withTwo :
    (copyMissing allWorks (some withTwo) withLink).dst [['a'], ['b']] = none ∧
      (copyMissing allWorks (some withTwo) withLink).dst [['d'], ['x']] = some (.other 5) := by
  have hname : ∀ ch : Char, ch ≠ '/' → ch ≠ '.' → ch ≠ '\n' → Name [ch] := by
    intro ch hslash hdot hnewline
    exact ⟨⟨by simp, by simpa using hslash.symm, by simpa using hdot, by simp⟩,
      by simpa using hnewline.symm⟩
  have hfills := copyMissing_fills allWorks withTwo
    ⟨hname _ (by decide) (by decide) (by decide),
      ⟨hname _ (by decide) (by decide) (by decide), trivial, trivial⟩,
      hname _ (by decide) (by decide) (by decide),
        ⟨hname _ (by decide) (by decide) (by decide), trivial, trivial⟩,
      trivial⟩ (by simp [withTwo, Forest.Distinct, names]) withLink
  have hmerged := hfills.2.2.2.2.1 (hfills.2.2.2.2.2 fun _ => rfl)
  exact ⟨(hmerged _).trans rfl, (hmerged _).trans rfl⟩

end Mu300.CopyMissing
