import Mu300.Lib.Refuse
import Mu300.Update.Tags

/-!
# Which release is offered

`pick` of `tools/release_pick.py`: from the list of releases the newest full one, and a newer
prerelease when there is one.
-/

namespace Mu300.Update

open Refuse Shell List

/-! ## The answer of the server -/

/-- A parsed JSON value; of a float only whether it is 0, and its text. -/
inductive Json : Type where
  | null
  | bool (b : Bool)
  | int (n : ℤ)
  | float (isZero : Bool) (repr : Text)
  | str (s : Text)
  | arr (items : List Json)
  | obj (fields : List (Text × Json))

namespace Json

/-- What `if` makes of a value. -/
def truthy : Json → Bool
  | null => false
  | bool b => b
  | int n => n ≠ 0
  | float isZero _ => !isZero
  | str s => s ≠ []
  | arr items => !items.isEmpty
  | obj fields => !fields.isEmpty

/-- `x or y`. -/
def orElse (x y : Json) : Json := if x.truthy then x else y

/-- `x.get(key)` of a dictionary; `None` without one. -/
def get (x : Json) (key : String) : Json :=
  match x with
  | obj fields => (fields.lookup key.toList).getD null
  | _ => null

def str? : Json → Option Text
  | str s => some s
  | _ => none

end Json

/-- The exceptions of Python that can be raised here. -/
inductive Raised : Type where
  | typeError
  | valueError
  | overflowError

/-- What `str` and `int` of Python give for a value: for `str` the values that are no strings, for
`int` all of them. -/
structure Builtins where
  str : Json → Text
  int : Json → Except Raised ℤ

namespace Builtins

variable (py : Builtins)

/-- `_when`: what a release is ordered by. -/
def when (rel : Json) : Text :=
  match ((rel.get "published_at").orElse (rel.get "created_at")).orElse (.str []) with
  | .str s => s
  | x => py.str x

/-- The items of `x` in a `for`, those that are dictionaries; a number has none to give. -/
def items (x : Json) : Except Raised (List Json) :=
  match x with
  | .arr items => .ok items
  | .str _ | .obj _ => .ok []
  | _ => .error .typeError

/-- `int(a.get('size') or 0)`, with what is caught. -/
def size (a : Json) : Except Raised ℤ :=
  match py.int ((a.get "size").orElse (.int 0)) with
  | .ok n => .ok n
  | .error .overflowError => .error .overflowError
  | .error _ => .ok 0

/-- `out[key] = value`. -/
def setItem {α : Type} (out : List (Text × α)) (key : Text) (value : α) : List (Text × α) :=
  if out.any (·.1 = key) then out.map fun x => if x.1 = key then (key, value) else x
  else out ++ [(key, value)]

def files (rel : Json) : Except Raised (List (Text × ℤ)) := do
  let assets ← items ((rel.get "assets").orElse (.arr []))
  assets.foldlM (fun out a =>
    match a, (a.get "name").str? with
    | .obj _, some name => do return setItem out name (← py.size a)
    | _, _ => return out) []

/-- `_usable`, with the tag. -/
def usable? (rel : Json) : Option Text :=
  match rel, (rel.get "tag_name").str? with
  | .obj _, some tag => if tag ≠ [] ∧ (rel.get "draft").truthy = false then some tag else none
  | _, _ => none

/-- `max(rels, key=_when)`: of equal ones the first. -/
def newest (r : Text × Json) (rs : List (Text × Json)) : Text × Json :=
  rs.foldl (fun m r => if before (py.when m.2) (py.when r.2) then r else m) r

/-- The result of `pick`. -/
structure Picked where
  latest : Option Text
  beta : Option Text
  files : List (Text × List (Text × ℤ))

/-- The releases that can be used, with their tags. -/
def usables (rels : List Json) : List (Text × Json) :=
  rels.filterMap fun rel => (usable? rel).map fun tag => (tag, rel)

/-- A prerelease that may be offered beside `latest`: published after it, and, both being release
tags, also newer by its tag. -/
def isBeta (latest r : Text × Json) : Bool :=
  (r.2.get "prerelease").truthy && before (py.when latest.2) (py.when r.2) && r.1 ≠ latest.1 &&
    !(Python.tagOk r.1 && Python.tagOk latest.1 && !Python.newer r.1 latest.1)

def pick (releases : Json) : Except Raised Picked :=
  match releases with
  | .arr rels =>
    match (usables rels).filter fun r => !(r.2.get "prerelease").truthy with
    | [] => .ok ⟨none, none, []⟩
    | r :: rs => do
      let latest := py.newest r rs
      let latestFiles ← py.files latest.2
      match (usables rels).filter (py.isBeta latest) with
      | [] => return ⟨some latest.1, none, [(latest.1, latestFiles)]⟩
      | p :: ps =>
        let beta := py.newest p ps
        let betaFiles ← py.files beta.2
        return ⟨some latest.1, some beta.1, setItem [(latest.1, latestFiles)] beta.1 betaFiles⟩
  | _ => .ok ⟨none, none, []⟩

/-! ## What is picked -/

variable {py : Builtins}

theorem newest_mem (r : Text × Json) (rs : List (Text × Json)) : py.newest r rs ∈ r :: rs := by
  refine foldlRecOn (motive := (· ∈ r :: rs)) rs _ mem_cons_self fun x hx r' hr' => ?_
  split_ifs
  · exact mem_cons_of_mem _ hr'
  · exact hx

theorem mem_usables {rels : List Json} {r : Text × Json} (h : r ∈ usables rels) :
    r.2 ∈ rels ∧ usable? r.2 = some r.1 := by
  obtain ⟨rel, hrel, hmap⟩ := mem_filterMap.1 h
  obtain ⟨tag, htag, rfl⟩ := Option.map_eq_some_iff.1 hmap
  exact ⟨hrel, htag⟩

/-- **What is picked**: a full release of the list and, when a beta is, a prerelease of the list
that was published after it and is newer by its tag where both have release tags. -/
theorem pick_spec {releases : Json} {res : Picked} {l b : Text} (h : py.pick releases = .ok res)
    (hl : res.latest = some l) (hb : res.beta = some b) :
    ∃ rels latest beta, releases = .arr rels ∧ latest ∈ rels ∧ beta ∈ rels ∧
      usable? latest = some l ∧ usable? beta = some b ∧ (latest.get "prerelease").truthy = false ∧
      (beta.get "prerelease").truthy ∧ before (py.when latest) (py.when beta) ∧
      (Python.tagOk l → Python.tagOk b → Python.newer b l) := by
  cases releases with
  | null | bool | int | float | str | obj =>
    cases h
    cases hl
  | arr rels =>
    rw [pick] at h
    split at h
    · cases h
      cases hl
    · rename_i r rs hfull
      have hlatest : py.newest r rs ∈ (usables rels).filter fun r =>
          !(r.2.get "prerelease").truthy := by
        rw [hfull]
        exact newest_mem r rs
      obtain ⟨hmem, hprerelease⟩ := mem_filter.1 hlatest
      obtain ⟨hin, husable⟩ := mem_usables hmem
      obtain ⟨latestFiles, -, h⟩ := bind_eq_ok.1 h
      split at h
      · cases h
        cases hb
      · rename_i p ps hpre
        have hbeta : py.newest p ps ∈ (usables rels).filter (py.isBeta (py.newest r rs)) := by
          rw [hpre]
          exact newest_mem p ps
        obtain ⟨hmem', hisBeta⟩ := mem_filter.1 hbeta
        obtain ⟨hin', husable'⟩ := mem_usables hmem'
        obtain ⟨betaFiles, -, h⟩ := bind_eq_ok.1 h
        cases h
        cases hl
        cases hb
        simp only [isBeta, Bool.and_eq_true, Bool.not_eq_true'] at hisBeta
        obtain ⟨⟨⟨hpre', hwhen⟩, -⟩, htag⟩ := hisBeta
        refine ⟨rels, _, _, rfl, hin, hin', husable, husable', ?_, hpre', hwhen, fun hl hb => ?_⟩
        · rwa [Bool.not_eq_true'] at hprerelease
        · rw [hb, hl, Bool.true_and, Bool.true_and, Bool.not_eq_false'] at htag
          exact htag

end Builtins

/-- **Release tags mean the same everywhere**: the shell, Python and JavaScript take the same texts
for release tags and have one relation between them, a strict total order; and a beta that is picked
beside a latest release is after it in that order and in time. -/
theorem release_tags_agree :
    (∀ t, tagOk t = Python.tagOk t ∧ (releaseKey t).isSome = Python.tagOk t) ∧
      (∀ a b, newer a b = Python.newer a b ∧ newerTag a b = Python.newer a b) ∧
      (∀ a, newer a a = false) ∧
      (∀ a b c, newer a b → newer b c → newer a c) ∧
      (∀ a b, tagOk a → tagOk b → a ≠ b → newer a b = !newer b a) ∧
      ∀ (py : Builtins) (releases : Json) (res : Builtins.Picked) (l b : Text),
        py.pick releases = .ok res → res.latest = some l → res.beta = some b → tagOk l → tagOk b →
        newer b l ∧ ∃ rels latest beta, releases = .arr rels ∧ latest ∈ rels ∧ beta ∈ rels ∧
          Builtins.usable? latest = some l ∧ Builtins.usable? beta = some b ∧
          before (py.when latest) (py.when beta) := by
  refine ⟨fun t => ⟨tagOk_eq t, by rw [releaseKey_eq]; rfl⟩,
    fun a b => ⟨newer_eq a b, newerTag_eq a b⟩,
    newer_irrefl, fun a b c => newer_trans, fun a b ha hb hne => ?_, ?_⟩
  · obtain ⟨g, rfl⟩ := tagOk_iff.1 ha
    obtain ⟨h, rfl⟩ := tagOk_iff.1 hb
    exact newer_total hne
  · intro py releases res l b hpick hlatest hbeta hl hb
    obtain ⟨rels, latest, beta, hrels, hin, hin', husable, husable', -, -, hwhen, htag⟩ :=
      Builtins.pick_spec hpick hlatest hbeta
    rw [tagOk_eq] at hl hb
    rw [newer_eq]
    exact ⟨htag hl hb, rels, latest, beta, hrels, hin, hin', husable, husable', hwhen⟩

end Mu300.Update
