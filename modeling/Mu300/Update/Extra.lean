import Mu300.Lib.Crash

/-!
# An extra takes the place of the one before

`extra_put NAME DIR` of `mu300-update`: the extra goes aside as `.NAME.old`, the new one comes to
its name, and the old one is removed; before that, what an earlier call that was cut off has left is
put right.

* `Place`, `State` — the three names on the filesystem, each with the tree that is there.
-/

namespace Mu300.ExtraPut

open Crash Crash.Prog Function

/-! ## Trees -/

abbrev Name := String

/-- What is at a path: a directory, or something else. -/
inductive Entry (φ : Type) : Type where
  | dir
  | file (content : φ)
  deriving DecidableEq

/-- What is at every path below a name; nothing at the empty path is nothing at all. -/
abbrev Tree (φ : Type) := List Name → Option (Entry φ)

variable {φ : Type}

namespace Tree

def absent : Tree φ := fun _ => none

def isDir (t : Tree φ) : Bool :=
  match t [] with
  | some .dir => true
  | _ => false

/-- What an `rm -rf` that was cut off has left. The directory itself is the last to go. -/
def torn (keeps : List Name → Bool) (t : Tree φ) : Tree φ :=
  fun p => if p = [] ∨ keeps p then t p else none

/-- Another tree inside, under a name. -/
def take (t : Tree φ) (n : Name) (u : Tree φ) : Tree φ
  | [] => t []
  | m :: p => if m = n then u p else t (m :: p)

def sub (t : Tree φ) (n : Name) : Tree φ := fun p => t (n :: p)

end Tree

/-- `EXTRA/NAME`, `EXTRA/.NAME.old` and `DIR`. -/
inductive Place : Type where
  | name | old | dir
  deriving DecidableEq

abbrev State (φ : Type) := Place → Tree φ

variable (x : Name)

/-- The last part of a path; that of `DIR` is anything. -/
def Place.base (d : Name) : Place → Name
  | name => x
  | old => "." ++ x ++ ".old"
  | dir => d

namespace State

variable (s : State φ)

def rename (src dst : Place) : State φ := update (update s src .absent) dst (s src)

/-- `mv SRC DST`, when it can be done: to a free name, or into a directory that has nothing of that
name. -/
def mv (x d : Name) (src dst : Place) : Option (State φ) :=
  if s src [] = none then none
  else match s dst [] with
    | none => some (s.rename src dst)
    | some (.file _) => none
    | some .dir =>
      if s dst [src.base x d] = none then
        some (update (update s src .absent) dst ((s dst).take (src.base x d) (s src)))
      else none

/-- `mv OLD/debs NAME/debs`, where there is none. -/
def moveDebs : State φ :=
  update (update s .old ((s .old).take "debs" .absent)) .name
    ((s .name).take "debs" ((s .old).sub "debs"))

end State

/-! ## The function -/

/-- How the outside answers a step. -/
structure Answer where
  /-- a rename works -/
  moves : Bool
  /-- what an `rm -rf` under way has not got to -/
  keeps : List Name → Bool

/-- `mv`, and whether it worked. -/
def mv (x d : Name) (src dst : Place) : Prog Answer (State φ) Bool :=
  op (fun e s => if e.moves then (s.mv x d src dst).getD s else s) fun e s => e.moves &&
    (s.mv x d src dst).isSome

/-- `rm -rf`. -/
def rm (p : Place) : Prog Answer (State φ) Unit := do
  op (fun e s => update s p ((s p).torn e.keeps)) fun _ _ => ()
  act fun s => update s p .absent

/-- `[ -d PLACE ]`. -/
def isDir (p : Place) : Prog Answer (State φ) Bool := look fun _ s => (s p).isDir

/-- The panel: Cockpit's packages go along to a new one that brings none. -/
def keepDebs : Prog Answer (State φ) Unit := do
  if x = "panel" then
    let has ← look fun _ s => ((s .old).sub "debs").isDir && (s .name ["debs"]).isNone
    if has then
      op (fun e s => if e.moves then s.moveDebs else s) fun _ _ => ()
    else pure ()
  else pure ()

/-- An earlier swap cut off between its two renames: the old one is still the one there is. -/
def repair (d : Name) : Prog Answer (State φ) Bool := do
  if ← isDir .name then pure true
  else if ← isDir .old then mv x d .old .name
  else pure true

def setAside (d : Name) : Prog Answer (State φ) Bool := do
  if ← isDir .name then mv x d .name .old else pure true

def putBack (d : Name) : Prog Answer (State φ) Bool := do
  if ← isDir .old then mv x d .old .name else pure false

/-- `extra_put NAME DIR`. -/
def extraPut (d : Name) : Prog Answer (State φ) Bool := do
  if ← repair x d then
    rm .old
    if ← setAside x d then
      if ← mv x d .dir .name then
        keepDebs x
        rm .old
        pure true
      else
        let _ ← putBack x d
        pure false
    else pure false
  else pure false

/-! ## Calls -/

/-- One call: what is at `DIR`, under which name, and the answers, which end where the call is cut
off. -/
structure Call (φ : Type) where
  dir : Tree φ
  base : Name
  answers : List Answer

/-- `DIR` is filled, and the function is called. -/
def Call.run (c : Call φ) (s : State φ) : Outcome (State φ) Bool :=
  exec (extraPut x c.base) c.answers (update s .dir c.dir)

/-- One call after the other, each from what the one before has left. -/
def calls (cs : List (Call φ)) (s : State φ) : State φ :=
  cs.foldl (fun s c => (c.run x s).state) s

/-- A complete version, where `Given` are those that were unpacked and checked: one of them, or for
the panel one of them with the packages of the one before. -/
inductive Whole (x : Name) (Given : Tree φ → Prop) : Tree φ → Prop
  | given {t : Tree φ} : Given t → Whole x Given t
  | debs {t u : Tree φ} : x = "panel" → Given t → t ["debs"] = none → Whole x Given u →
    (u.sub "debs").isDir →
      Whole x Given (t.take "debs" (u.sub "debs"))

/-- The extra is whole, or it is not there and the one aside is whole. -/
def Kept (Given : Tree φ → Prop) (s : State φ) : Prop :=
  Whole x Given (s .name) ∨ s .name = .absent ∧ Whole x Given (s .old)

def current (s : State φ) : Tree φ := if (s .name).isDir then s .name else s .old

/-- The version `t` has come to the name, after `u`, and nothing is aside. -/
def Installed (t u : Tree φ) (s : State φ) : Prop :=
  (s .name = t ∨
    x = "panel" ∧ t ["debs"] = none ∧ (u.sub "debs").isDir ∧
      s .name = t.take "debs" (u.sub "debs")) ∧
    s .old = .absent

/-! ## Steps -/

section Steps

variable {x d : Name} {A : Answer → Prop} {C : State φ → Prop} {s : State φ}
  {p : Place} {t : Tree φ}

theorem isDir_iff : t.isDir ↔ t [] = some .dir := by
  unfold Tree.isDir
  split
  · next h => exact ⟨fun _ => h, fun _ => rfl⟩
  · next h => exact ⟨by rintro ⟨⟩, fun hd => absurd hd (h ·)⟩

theorem root_ne_none (h : t.isDir) : t [] ≠ none := by
  rw [isDir_iff.1 h]
  rintro ⟨⟩

@[simp] theorem isDir_absent : (Tree.absent : Tree φ).isDir = false := rfl

@[simp] theorem rename_src {src dst : Place} (h : src ≠ dst) : s.rename src dst src = .absent := by
  rw [State.rename, update_of_ne h, update_self]

@[simp] theorem rename_dst (src dst : Place) : s.rename src dst dst = s src := update_self ..

theorem rename_other {src dst : Place} (hs : p ≠ src) (hd : p ≠ dst) :
    s.rename src dst p = s p := by
  rw [State.rename, update_of_ne hd, update_of_ne hs]

def Fails (A : Answer → Prop) : Prop := ∃ e, A e ∧ e.moves = false

theorem wp_mv {Q : Bool → State φ → Prop} {src dst : Place} (hdst : s dst = .absent) (hC : C s)
    (hfails : Fails A ∨ s src [] = none → Q false s)
    (hmoves : s src [] ≠ none → Q true (s.rename src dst)) : wp A C Q (mv x d src dst) s := by
  rw [mv, wp_op]
  refine ⟨hC, fun e he => ?_⟩
  have hmv : s.mv x d src dst = if s src [] = none then none else some (s.rename src dst) := by
    rw [State.mv, hdst]
    rfl
  rw [hmv]
  by_cases hsrc : s src [] = none
  · rw [if_pos hsrc]
    cases e.moves <;> exact hfails (.inr hsrc)
  · rw [if_neg hsrc]
    cases hmoved : e.moves
    · exact hfails (.inl ⟨e, he, hmoved⟩)
    · exact hmoves hsrc

theorem wp_whenDir {α : Type} {Q : α → State φ → Prop} {yes no : Prog Answer (State φ) α} (hC : C s)
    (hyes : (s p).isDir → wp A C Q yes s) (hno : ¬ (s p).isDir → wp A C Q no s) :
    wp A C Q (do if ← isDir p then yes else no) s := by
  rw [wp_bind, isDir, wp_look]
  refine ⟨hC, fun _ _ => ?_⟩
  rw [wp_ite]
  exact ⟨hyes, hno⟩

theorem wp_rm {Q : Unit → State φ → Prop} (hC : ∀ t, C (update s p t))
    (hend : Q () (update s p .absent)) : wp A C Q (rm p) s := by
  have hnow := hC (s p)
  rw [update_eq_self] at hnow
  refine ⟨hnow, fun e _ => ⟨hC _, fun _ _ => ?_⟩⟩
  change Q () (update (update s p _) p .absent)
  rw [update_idem]
  exact hend

end Steps

/-! ## A call -/

section Call

variable {x d : Name} {Given : Tree φ → Prop} {A : Answer → Prop} {s : State φ} {t u : Tree φ}

section

variable (hGiven : ∀ t, Given t → t.isDir)

include hGiven

theorem Whole.isDir (h : Whole x Given t) : t.isDir := by
  cases h with
  | given ht => exact hGiven t ht
  | debs _ ht =>
    have hroot := isDir_iff.1 (hGiven _ ht)
    exact isDir_iff.2 hroot

theorem Kept.current (h : Kept x Given s) : Whole x Given (current s) := by
  unfold ExtraPut.current
  rcases h with h | ⟨hname, h⟩
  · rwa [if_pos (h.isDir hGiven)]
  · rwa [hname, isDir_absent, if_neg Bool.false_ne_true]

theorem wp_repair (h : Kept x Given s) : wp A (Kept x Given)
      (fun (ok : Bool) s' => Kept x Given s' ∧ s' .dir = s .dir ∧
        (if ok then s' .name = ExtraPut.current s else Fails A)) (repair x d) s := by
  unfold repair ExtraPut.current
  refine wp_whenDir h (fun hdir => ⟨h, rfl, (if_pos hdir).symm⟩) fun hdir => ?_
  rcases h with hname | ⟨hname, hold⟩
  · exact absurd (hname.isDir hGiven) hdir
  have hkept : Kept x Given s := .inr ⟨hname, hold⟩
  refine wp_whenDir hkept (fun _ => ?_) fun hno => absurd (hold.isDir hGiven) hno
  refine wp_mv hname hkept (fun hfails => ⟨hkept, rfl, hfails.resolve_right ?_⟩) fun _ =>
    ⟨.inl ?_, ?_, ?_⟩
  · exact root_ne_none (hold.isDir hGiven)
  · rwa [rename_dst]
  · exact rename_other (by decide) (by decide)
  · change s.rename .old .name .name = _
    rw [rename_dst, if_neg hdir]

theorem wp_setAside (hu : Whole x Given u) (hname : s .name = u) (hold : s .old = .absent) :
    wp A (Kept x Given)
      (fun (ok : Bool) s' => Kept x Given s' ∧
        (if ok then s' .name = .absent ∧ s' .old = u ∧ s' .dir = s .dir else Fails A))
        (setAside x d) s := by
  subst hname
  have hkept : Kept x Given s := .inl hu
  refine wp_whenDir hkept (fun _ => ?_) fun hno => absurd (hu.isDir hGiven) hno
  refine wp_mv hold hkept
    (fun hfails => ⟨hkept, hfails.resolve_right (root_ne_none (hu.isDir hGiven))⟩) fun _ => ?_
  have hsrc : s.rename .name .old .name = .absent := rename_src (by decide)
  have hdst : s.rename .name .old .old = s .name := rename_dst ..
  refine ⟨.inr ⟨hsrc, ?_⟩, hsrc, hdst, rename_other (by decide) (by decide)⟩
  rwa [hdst]

end

theorem wp_putBack (hu : Whole x Given (s .old)) (hname : s .name = .absent) :
    wp A (Kept x Given) (fun _ => Kept x Given) (putBack x d) s := by
  have hkept : Kept x Given s := .inr ⟨hname, hu⟩
  refine wp_whenDir hkept (fun _ => wp_mv hname hkept (fun _ => hkept) fun _ => .inl ?_)
    fun _ => hkept
  rwa [rename_dst]

theorem wp_keepDebs (ht : Given t) (hu : Whole x Given u) (hname : s .name = t)
    (hold : s .old = u) : wp A (Kept x Given)
      (fun _ s' => Whole x Given (s' .name) ∧ (s' .name = t ∨
        x = "panel" ∧ t ["debs"] = none ∧ (u.sub "debs").isDir ∧
        s' .name = t.take "debs" (u.sub "debs")))
      (keepDebs x) s := by
  subst hname hold
  have hkept : Kept x Given s := .inl (.given ht)
  refine wp_if (fun hpanel => ?_) fun _ => ⟨.given ht, .inl rfl⟩
  refine wp_step hkept fun _ _ => ?_
  refine wp_if (fun hhas => ?_) fun _ => ⟨.given ht, .inl rfl⟩
  rw [Bool.and_eq_true, Option.isNone_iff_eq_none] at hhas
  rw [wp_op]
  refine ⟨hkept, fun e _ => ?_⟩
  split
  · have hmoved : s.moveDebs .name = (s .name).take "debs" ((s .old).sub "debs") := update_self ..
    exact ⟨.debs hpanel ht hhas.2 hu hhas.1, .inr ⟨hpanel, hhas.2, hhas.1, rfl⟩⟩
  · exact ⟨.given ht, .inl rfl⟩

/-- **One call**: it can be cut off only where a whole version is kept. Where it gets to its end the
new one is in place and nothing aside, unless a rename failed or there was no new one. -/
theorem wp_extraPut (hGiven : ∀ t, Given t → t.isDir) (h : Kept x Given s)
    (hdir : s .dir = .absent ∨ Given (s .dir)) : wp A (Kept x Given)
      (fun (ok : Bool) s' => Kept x Given s' ∧
        (if ok then Installed x (s .dir) (ExtraPut.current s) s' else Fails A ∨ ¬ Given (s .dir)))
      (extraPut x d) s := by
  have hu := h.current hGiven
  refine wp_seq (wp_repair hGiven h) fun ok s₁ h₁ => ?_
  obtain ⟨hkept₁, hdir₁, h₁⟩ := h₁
  cases ok with
  | false => exact ⟨hkept₁, .inl h₁⟩
  | true =>
  have hname₁ : ∀ t', update s₁ .old t' .name = ExtraPut.current s := fun t' => by
    exact h₁
  rw [if_pos rfl, wp_bind]
  refine wp_rm (fun t' => .inl (by rw [hname₁]; exact hu)) ?_
  refine wp_seq (wp_setAside hGiven hu (hname₁ _) (update_self ..)) fun ok s₂ h₂ => ?_
  obtain ⟨hkept₂, h₂⟩ := h₂
  cases ok with
  | false => exact ⟨hkept₂, .inl h₂⟩
  | true =>
  obtain ⟨hname₂, hold₂, hdir₂⟩ := h₂
  rw [update_of_ne (by decide), hdir₁] at hdir₂
  rw [if_pos rfl, wp_bind]
  refine wp_mv hname₂ hkept₂ (fun hfails => ?_) fun hsome => ?_
  · -- the new one did not come: the old one comes back
    refine wp_seq
      (wp_putBack (by rw [hold₂]; exact hu) hname₂) fun _ s₃ h₃ =>
        ⟨h₃, hfails.imp_right fun hnone hgiven => ?_⟩
    rw [hdir₂] at hnone
    exact root_ne_none (hGiven _ hgiven) hnone
  · have hgiven : Given (s .dir) := hdir.resolve_left fun hdir => hsome (by rw [hdir₂, hdir]; rfl)
    refine wp_seq
      (wp_keepDebs hgiven hu (by rw [rename_dst, hdir₂])
        (by rw [rename_other (by decide) (by decide), hold₂])) fun _ s₃ h₃ => ?_
    have hname₃ : ∀ t', update s₃ .old t' .name = s₃ .name := fun t' => update_of_ne (by decide) ..
    have hkept₃ : ∀ t', Kept x Given (update s₃ .old t') := fun t' =>
        .inl (by rw [hname₃]; exact h₃.1)
    rw [wp_bind]
    refine wp_rm hkept₃ ⟨hkept₃ _, ?_, update_self ..⟩
    exact h₃.2

end Call

/-! ## Any number of calls -/

section Calls

variable {x : Name} {Given : Tree φ → Prop} {s : State φ}

theorem Kept.update_dir (h : Kept x Given s) (t : Tree φ) : Kept x Given (update s .dir t) := by
  unfold Kept
  rwa [update_of_ne (by decide), update_of_ne (by decide)]

theorem current_update_dir (s : State φ) (t : Tree φ) : current (update s .dir t) = current s := by
  unfold current
  rw [update_of_ne (by decide), update_of_ne (by decide)]

theorem wp_call (hGiven : ∀ t, Given t → t.isDir) {A : Answer → Prop}
    (h : Kept x Given s) {t : Tree φ} (ht : t = .absent ∨ Given t) (d : Name) : wp A (Kept x Given)
      (fun (ok : Bool) s' => Kept x Given s' ∧
        (if ok then Installed x t (current s) s' else Fails A ∨ ¬ Given t))
      (extraPut x d) (update s .dir t) := by
  have hself : update s .dir t .dir = t := update_self ..
  have hwp := wp_extraPut (A := A) (x := x) (d := d) hGiven (h.update_dir t) (by rwa [hself])
  rwa [hself, current_update_dir] at hwp

theorem Kept.calls (hGiven : ∀ t, Given t → t.isDir) (h : Kept x Given s) {cs : List (Call φ)}
    (hcs : ∀ c ∈ cs, c.dir = .absent ∨ Given c.dir) : Kept x Given (calls x cs s) := by
  induction cs generalizing s with
  | nil => exact h
  | cons c cs ih =>
    refine ih ?_ fun c' hc' => hcs c' (List.mem_cons_of_mem _ hc')
    have hwp := wp_call (A := fun _ => True) hGiven h (hcs c List.mem_cons_self) c.base
    exact exec_state_of_wp (fun _ _ => trivial) (wp_mono (fun _ hC => hC) (fun _ _ hQ => hQ.1) hwp)

/-- **An extra is never lost.** Through any calls, each cut off anywhere, one of the two names has a
complete version. A call that gets to its end has put its own in place, with nothing aside; it ends
otherwise only where a rename failed or nothing was at `DIR`. -/
theorem extra_never_lost (x : Name) (Given : Tree φ → Prop) (hGiven : ∀ t, Given t → t.isDir)
    (s : State φ)
    (hs : Kept x Given s) (cs : List (Call φ)) (hcs : ∀ c ∈ cs, c.dir = .absent ∨ Given c.dir) :
    (Whole x Given (calls x cs s .name) ∨ Whole x Given (calls x cs s .old)) ∧
      ∀ (c : Call φ) (ok : Bool) (s' : State φ), (c.dir = .absent ∨ Given c.dir) →
        c.run x (calls x cs s) = .done ok s' →
        (ok → Installed x c.dir (current (calls x cs s)) s') ∧
          (Given c.dir → (∀ e ∈ c.answers, e.moves) → ok) := by
  have hkept := hs.calls hGiven hcs
  refine ⟨hkept.imp_right And.right, fun c ok s' hc hrun => ?_⟩
  have hend := (exec_done_of_wp (fun _ he => he)
    (wp_call (A := (· ∈ c.answers)) hGiven hkept hc c.base) hrun).2
  cases ok with
  | true => exact ⟨fun _ => hend, fun _ _ => rfl⟩
  | false =>
    refine ⟨by rintro ⟨⟩, fun hgiven hmoves => ?_⟩
    rcases hend with ⟨e, he, hfails⟩ | hnot
    · rw [hmoves e he] at hfails
      cases hfails
    · exact absurd hgiven hnot

def version (n : ℕ) : Tree ℕ :=
  fun p => if p = [] then some .dir else if p = ["bin"] then some (.file n) else none

/-- A call with the version `n`, cut off after so many steps. -/
def cutOff (n steps : ℕ) : Call ℕ := ⟨version n, "new", List.replicate steps ⟨true, fun _ => false⟩⟩

/-- The first call is cut off between its two renames, the next one in the removal of what it has
replaced. -/
theorem extra_never_lost_twice :
    let s : State ℕ := fun p => if p = .name then version 1 else .absent
    let Given : Tree ℕ → Prop := fun t => ∃ n, t = version n
    calls "vpn" [cutOff 2 5] s .name [] = none ∧ calls "vpn" [cutOff 2 5, cutOff 3 9] s .name
      ["bin"] = some (.file 3) ∧
      (Whole "vpn" Given (calls "vpn" [cutOff 2 5] s .name) ∨
        Whole "vpn" Given (calls "vpn" [cutOff 2 5] s .old)) := by
  refine ⟨by decide, by decide,
    (extra_never_lost "vpn" _ ?_ _ (.inl (.given ⟨1, rfl⟩)) [cutOff 2 5] ?_).1⟩
  · rintro t ⟨n, rfl⟩
    rfl
  · intro c hc
    obtain rfl := List.mem_singleton.1 hc
    exact .inr ⟨2, rfl⟩

end Calls

end Mu300.ExtraPut
