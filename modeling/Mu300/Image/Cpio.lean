import Mathlib.Data.Char
import Mu300.Lib.Bytes
import Mu300.Lib.FileTree
import Mu300.Lib.Hex

/-!
# The ramdisk archive

`cpio_archive` and `cpio_names` of `build-boot-image.py`. A byte is a character here, and a name is
its UTF-8.
-/

namespace Mu300.Image

open Shell FileTree Bytes List Prod

/-! ## The writer -/

/-- The digits of `%08x`, for what fits. -/
def hexDigits : ℕ → ℕ → Text
  | 0, _ => []
  | w + 1, n => hexDigits w (n / 16) ++ [Nat.digitChar (n % 16)]

/-- `%08x`. -/
def hex8 (v : ℕ) : Text := if v < 16 ^ 8 then hexDigits 8 v else Nat.toDigits 16 v

/-- `-n % 4` bytes. -/
def padding (n : ℕ) : Text := replicate ((4 - n % 4) % 4) '\x00'

def newc : Text := ['0', '7', '0', '7', '0', '1']

structure Entry where
  name : Text
  data : Text
  mode : ℕ
  rdev : ℕ × ℕ

def cpioRecord (e : Entry) (ino : ℕ) : Text :=
  let nb := e.name ++ ['\x00']
  let fields := [ino, e.mode, 0, 0, 1, 0, e.data.length, 0, 0, e.rdev.1, e.rdev.2, nb.length, 0]
  let x := newc ++ fields.flatMap hex8 ++ nb
  x ++ padding x.length ++ e.data ++ padding e.data.length

/-- By depth, and then by name. -/
def shallower (x y : Text) : Prop := x.count '/' < y.count '/' ∨ x.count '/' = y.count '/' ∧ x ≤ y

instance shallowerDecidable : DecidableRel shallower :=
  fun _ _ => inferInstanceAs (Decidable (_ ∨ _))

/-- The directories of the archive: those given, and the parents of everything. The parents of a
normalized relative name are what is in front of its slashes. -/
def archiveDirs (dirs files : List Text) : List Text :=
  (dirs ++ (files ++ dirs).flatMap above).dedup.insertionSort shallower

def dirEntry (d : Text) : Entry := ⟨d, [], 0o40755, (0, 0)⟩

/-- A file: its name, its data and its mode. -/
def fileEntry (f : Text × Text × ℕ) : Entry := ⟨f.1, f.2.1, f.2.2, (0, 0)⟩

def console : Entry := ⟨"dev/console", [], 0o20600, (5, 1)⟩

def trailer : Entry := ⟨"TRAILER!!!", [], 0, (0, 0)⟩

/-- The records but for the trailer. -/
def entries (dirs : List Text) (files : List (Text × Text × ℕ)) : List Entry :=
  (archiveDirs dirs (files.map fst)).map dirEntry ++ (files.map fileEntry ++ [console])

/-- Records one after another, numbered. -/
def records : List Entry → ℕ → Text
  | [], _ => []
  | e :: es, ino => cpioRecord e ino ++ records es (ino + 1)

def cpioArchive (dirs : List Text) (files : List (Text × Text × ℕ)) : Text :=
  records (entries dirs files ++ [trailer]) 1

/-! ## The reader -/

/-- `int(TEXT, 16)`. -/
def unhex (t : Text) : ℕ := t.foldl (fun v c => v * 16 + Hex.hexval c) 0

/-- The loop of `cpio_names`; every pass goes on by 110 bytes at least. -/
def namesFrom (data : Text) : ℕ → ℕ → List Text
  | 0, _ => []
  | n + 1, i =>
    if i + 110 ≤ data.length ∧ slice data i 6 = newc then
      let size := unhex (slice data (i + 54) 8)
      let nlen := unhex (slice data (i + 94) 8)
      let name := slice data (i + 110) (nlen - 1)
      if name = trailer.name then []
      else
        let j := i + 110 + nlen
        let j := j + (4 - j % 4) % 4
        name :: namesFrom data n (j + size + (4 - size % 4) % 4)
    else []

def cpioNames (data : Text) : List Text := namesFrom data (data.length + 1) 0

/-! ## Fields -/

@[simp] theorem length_hexDigits (w n : ℕ) : (hexDigits w n).length = w := by
  induction w generalizing n with
  | zero => rfl
  | succ w ih => simp [hexDigits, ih]

theorem unhex_hexDigits (w n : ℕ) : unhex (hexDigits w n) = n % 16 ^ w := by
  have hdigit : ∀ d < 16, Hex.hexval (Nat.digitChar d) = d := by decide
  induction w generalizing n with
  | zero => simp [hexDigits, unhex, Nat.mod_one]
  | succ w ih =>
    rw [hexDigits, unhex, foldl_append, ← unhex, ih, foldl_cons, foldl_nil,
      hdigit _ (Nat.mod_lt _ (by decide)), Nat.pow_succ', Nat.mod_mul]
    omega

theorem length_hex8 {v : ℕ} (h : v < 16 ^ 8) :
    (hex8 v).length = 8 := by rw [hex8, if_pos h, length_hexDigits]

theorem unhex_hex8 {v : ℕ} (h : v < 16 ^ 8) : unhex (hex8 v) = v := by
  rw [hex8, if_pos h, unhex_hexDigits, Nat.mod_eq_of_lt h]

/-- What fits into the fields of a record. -/
structure Entry.Fits (e : Entry) : Prop where
  name : e.name.length + 1 < 16 ^ 8
  data : e.data.length < 16 ^ 8
  mode : e.mode < 16 ^ 8
  rdev : e.rdev.1 < 16 ^ 8 ∧ e.rdev.2 < 16 ^ 8

@[simp] theorem length_newc : newc.length = 6 := rfl

section

variable {e : Entry} {ino : ℕ} {es : List Entry}

/-- A record: the head up to the size, from there to the length of the name, and what follows. -/
theorem cpioRecord_eq (h : e.Fits) (hino : ino < 16 ^ 8) :
    ∃ a b c : Text, a.length = 48 ∧ b.length = 32 ∧ c.length = 8 ∧
    cpioRecord e ino = newc ++ (a ++ (hex8 e.data.length ++ (b ++ (hex8 (e.name.length + 1) ++ (c ++
      (e.name ++ (['\x00'] ++
        (padding (110 + (e.name.length + 1)) ++ (e.data ++ padding e.data.length))))))))) := by
  have h₀ : (hex8 0).length = 8 := length_hex8 (by decide)
  have h₁ : (hex8 1).length = 8 := length_hex8 (by decide)
  refine ⟨hex8 ino ++ (hex8 e.mode ++ (hex8 0 ++ (hex8 0 ++ (hex8 1 ++ hex8 0)))),
    hex8 0 ++ (hex8 0 ++ (hex8 e.rdev.1 ++ hex8 e.rdev.2)), hex8 0, ?_, ?_, h₀, ?_⟩
  · simp [h₀, h₁, length_hex8 hino, length_hex8 h.mode]
  · simp [h₀, length_hex8 h.rdev.1, length_hex8 h.rdev.2]
  · generalize hF : [ino, e.mode, 0, 0, 1, 0, e.data.length, 0, 0, e.rdev.1, e.rdev.2,
      e.name.length + 1, 0].flatMap hex8 = F
    have hlen : F.length = 104 := by
      simp only [← hF, flatMap_cons, flatMap_nil, length_append, length_nil, h₀, h₁,
        length_hex8 hino,
        length_hex8 h.mode, length_hex8 h.data, length_hex8 h.rdev.1, length_hex8 h.rdev.2,
          length_hex8 h.name]
    have hx : (newc ++ F ++ (e.name ++ ['\x00'])).length = 110 + (e.name.length + 1) := by
      rw [length_append, length_append, length_append, hlen, length_newc, length_singleton]
    have hrecord : cpioRecord e ino = newc ++ F ++ (e.name ++ ['\x00']) ++ padding
        (110 + (e.name.length + 1)) ++ e.data ++ padding e.data.length := by
      rw [← hx, ← hF]
      simp [cpioRecord]
    rw [hrecord, ← hF]
    simp

theorem length_cpioRecord (h : e.Fits) (hino : ino < 16 ^ 8) : (cpioRecord e ino).length =
    110 + (e.name.length + 1) + (4 - (110 + (e.name.length + 1)) % 4) % 4 + e.data.length +
      (4 - e.data.length % 4) % 4 := by
  obtain ⟨a, b, c, ha, hb, hc, heq⟩ := cpioRecord_eq h hino
  simp only [heq, length_append, length_newc, ha, hb, hc, length_hex8 h.data, length_hex8 h.name,
    length_singleton, padding, length_replicate]
  omega

theorem namesFrom_record (h : e.Fits) (hino : ino < 16 ^ 8) (pre post : Text)
    (hpre : pre.length % 4 = 0) (n : ℕ) :
    namesFrom (pre ++ (cpioRecord e ino ++ post)) (n + 1) pre.length =
      if e.name = trailer.name then []
      else e.name :: namesFrom (pre ++ (cpioRecord e ino ++ post)) n
        (pre ++ cpioRecord e ino).length := by
  have hlen := length_cpioRecord h hino
  obtain ⟨a, b, c, ha, hb, hc, heq⟩ := cpioRecord_eq h hino
  generalize hdata : pre ++ (cpioRecord e ino ++ post) = data
  have hd := hdata.symm
  rw [heq] at hd
  -- each field is a slice behind what is in front of it
  have hslice : ∀ {x y : Text} {off k : ℕ} (front : Text), data = front ++ (x ++ y) →
      front.length = off → x.length = k → slice data off k = x := by
    rintro x y _ _ front hfront rfl rfl
    rw [hfront, slice, drop_left, take_left]
  have hmagic : slice data pre.length 6 = newc :=
    hslice pre (by rw [hd]; simp only [append_assoc]; rfl) rfl rfl
  have hsize : slice data (pre.length + 54) 8 = hex8 e.data.length :=
    hslice (pre ++ newc ++ a) (by rw [hd]; simp only [append_assoc]; rfl)
      (by simp [ha]) (length_hex8 h.data)
  have hnlen : slice data (pre.length + 94) 8 = hex8 (e.name.length + 1) :=
    hslice (pre ++ newc ++ a ++ hex8 e.data.length ++ b) (by rw [hd]; simp only [append_assoc]; rfl)
      (by simp [ha, hb, length_hex8 h.data]) (length_hex8 h.name)
  have hname : slice data (pre.length + 110) e.name.length = e.name :=
    hslice (pre ++ newc ++ a ++ hex8 e.data.length ++ b ++ hex8 (e.name.length + 1) ++ c)
      (by rw [hd]; simp only [append_assoc]; rfl)
        (by simp [ha, hb, hc, length_hex8 h.data, length_hex8 h.name]) rfl
  have hroom : pre.length + 110 ≤ data.length := by
    rw [← hdata, length_append, length_append, hlen]
    omega
  rw [namesFrom, if_pos ⟨hroom, hmagic⟩]
  simp only [hsize, hnlen, unhex_hex8 h.data, unhex_hex8 h.name, Nat.add_sub_cancel, hname]
  split
  · rfl
  · congr 2
    rw [length_append, hlen]
    omega

/-! ## Archives -/

theorem fits_of_name {name : Text} {mode : ℕ} (h : name.length + 1 < 16 ^ 8)
    (hmode : mode < 16 ^ 8) : Entry.Fits ⟨name, [], mode, (0, 0)⟩ :=
  have hzero : 0 < 16 ^ 8 := by decide
  ⟨h, hzero, hmode, hzero, hzero⟩

theorem trailer_fits : trailer.Fits := fits_of_name (by decide) (by decide)

theorem length_records_mod (h : ∀ e ∈ es, e.Fits) {ino : ℕ} (hino : ino + es.length ≤ 16 ^ 8) :
    (records es ino).length % 4 = 0 := by
  induction es generalizing ino with
  | nil => rfl
  | cons e es ih =>
    obtain ⟨he, hes⟩ := forall_mem_cons.1 h
    rw [length_cons] at hino
    have hrest := @ih hes (ino + 1) (by omega)
    rw [records, length_append, length_cpioRecord he (by omega)]
    omega

theorem namesFrom_records (h : ∀ e ∈ es, e.Fits ∧ e.name ≠ trailer.name) {ino : ℕ}
    (hino : ino + es.length < 16 ^ 8) {pre : Text} (hpre : pre.length % 4 = 0) {n : ℕ}
    (hn : es.length < n) :
    namesFrom (pre ++ records (es ++ [trailer]) ino) n pre.length = es.map Entry.name := by
  induction es generalizing ino pre n with
  | nil =>
    obtain ⟨n, rfl⟩ := Nat.exists_eq_succ_of_ne_zero (Nat.ne_of_gt hn)
    rw [nil_append, records, namesFrom_record trailer_fits (by simpa using hino) pre _
      hpre, if_pos rfl]
    rfl
  | cons e es ih =>
    obtain ⟨⟨he, hne⟩, hes⟩ := forall_mem_cons.1 h
    rw [length_cons] at hino hn
    obtain ⟨n, rfl⟩ := Nat.exists_eq_succ_of_ne_zero (Nat.ne_zero_of_lt hn)
    have hlen := length_cpioRecord he (show ino < 16 ^ 8 by omega)
    rw [cons_append, records, namesFrom_record he (by omega) pre _ hpre, if_neg hne,
      ← append_assoc, map_cons, ih hes (by omega) (by rw [length_append, hlen]; omega) (by omega)]

theorem records_append (es fs : List Entry) (ino : ℕ) :
    records (es ++ fs) ino = records es ino ++ records fs (ino + es.length) := by
  induction es generalizing ino with
  | nil => rfl
  | cons e es ih => simp [records, ih, Nat.add_assoc, Nat.add_comm 1]

end

theorem length_le_records (es : List Entry) (ino : ℕ) : es.length ≤ (records es ino).length := by
  induction es generalizing ino with
  | nil => exact Nat.zero_le _
  | cons e es ih =>
    have hrest := ih (ino + 1)
    have hpos : 0 < (cpioRecord e ino).length := by simp [cpioRecord]
    rw [records, length_append, length_cons]
    omega

/-! ## Directories -/

section

variable {dirs : List Text} {files : List (Text × Text × ℕ)} {e : Entry}

theorem mem_archiveDirs {files : List Text} {x : Text} :
    x ∈ archiveDirs dirs files ↔ x ∈ dirs ∨ ∃ y ∈ files ++ dirs, x ∈ above y := by
  rw [archiveDirs, mem_insertionSort, mem_dedup, mem_append, mem_flatMap]

theorem above_archiveDirs {files : List Text} {d x : Text} (hx : x ∈ archiveDirs dirs files)
    (hd : d ∈ above x) : d ∈ archiveDirs dirs files := by
  rw [mem_archiveDirs] at hx ⊢
  rcases hx with hx | ⟨y, hy, hxy⟩
  · exact .inr ⟨x, mem_append_right _ hx, hd⟩
  · exact .inr ⟨y, hy, above_trans hd hxy⟩

theorem count_above {d x : Text} (h : d ∈ above x) : d.count '/' < x.count '/' := by
  obtain ⟨r, rfl⟩ := mem_above_iff.1 h
  simp

theorem sorted_archiveDirs (dirs files : List Text) :
    (archiveDirs dirs files).Pairwise shallower := by
  have htotal : Std.Total shallower := ⟨fun x y => by
    simp only [shallower]
    grind⟩
  have htrans : IsTrans Text shallower := ⟨fun x y z hxy hyz => by
    rcases hxy with hxy | ⟨hxy, hle⟩
    · exact .inl (by rcases hyz with hyz | ⟨hyz, -⟩ <;> omega)
    · rcases hyz with hyz | ⟨hyz, hle'⟩
      · exact .inl (by omega)
      · exact .inr ⟨by omega, hle.trans hle'⟩⟩
  exact pairwise_insertionSort _ _

theorem parents_before {before after : List Entry} (h : entries dirs files = before ++ e :: after)
    (hlast : after ≠ []) {d : Text} (hd : d ∈ above e.name) : dirEntry d ∈ before := by
  have hfile : ∀ c, files.map fileEntry ++ [console] = c ++ e :: after →
      dirEntry d ∈ (archiveDirs dirs (files.map fst)).map dirEntry := by
    intro c hrest
    obtain ⟨after, z, rfl⟩ := (eq_nil_or_concat' after).resolve_left hlast
    rw [← cons_append, ← append_assoc] at hrest
    have hfiles := (append_inj' hrest rfl).1
    obtain ⟨f, hf, rfl⟩ := mem_map.1 (hfiles ▸ mem_append_right c mem_cons_self)
    refine mem_map_of_mem (mem_archiveDirs.2 (.inr ⟨f.1, ?_, hd⟩))
    exact mem_append_left _ (mem_map_of_mem hf)
  rcases append_eq_append_iff.1 h with ⟨c, rfl, hrest⟩ | ⟨c, hdirs, hrest⟩
  · exact mem_append_left _ (hfile c hrest)
  · cases c with
    | nil =>
      rw [append_nil] at hdirs
      exact hdirs ▸ hfile [] hrest.symm
    | cons e' c =>
      obtain ⟨rfl, -⟩ := List.cons.inj hrest
      have he : e ∈ (archiveDirs dirs (files.map fst)).map dirEntry := by simp [hdirs]
      obtain ⟨x, hx, rfl⟩ := mem_map.1 he
      have hmem : dirEntry d ∈ before ++ dirEntry x :: c :=
          hdirs ▸ mem_map_of_mem (above_archiveDirs hx hd)
      have hsorted : (before ++ dirEntry x :: c).Pairwise fun a b => shallower a.name b.name := by
        rw [← hdirs, pairwise_map]
        exact sorted_archiveDirs _ _
      have hcount : d.count '/' < x.count '/' := count_above hd
      rcases mem_append.1 hmem with hmem | hmem
      · exact hmem
      · rcases mem_cons.1 hmem with heq | hmem
        · obtain rfl : d = x := congrArg Entry.name heq
          omega
        · have hle := (pairwise_cons.1 (pairwise_append.1 hsorted).2.1).1 _ hmem
          rcases hle with hlt | ⟨heq, -⟩
          · exact absurd (Nat.lt_trans hcount hlt) (Nat.lt_irrefl _)
          · exact absurd hcount
              (by rw [show d.count '/' = x.count '/' from heq.symm]; exact Nat.lt_irrefl _)

/-- What can be put into an archive. -/
structure Storable (dirs : List Text) (files : List (Text × Text × ℕ)) : Prop where
  /-- the names are normalized and relative -/
  normal : ∀ x ∈ files.map fst ++ dirs, '\x00' ∉ x ∧
    ∀ part ∈ x.splitOn '/', part ≠ [] ∧ part ≠ ['.']
  /-- none is the trailer's, or below a directory of that name -/
  trailer : ∀ x ∈ files.map fst ++ dirs, x ≠ trailer.name ∧ trailer.name ∉ above x
  /-- lengths, modes and inodes fit into their fields -/
  length : ∀ x ∈ files.map fst ++ dirs, x.length + 1 < 16 ^ 8
  files_fit : ∀ f ∈ files, (fileEntry f).Fits
  inodes : (entries dirs files).length + 1 < 16 ^ 8

theorem Storable.entries (h : Storable dirs files) (he : e ∈ entries dirs files) :
    e.Fits ∧ e.name ≠ Image.trailer.name := by
  rcases mem_append.1 he with he | he
  · obtain ⟨x, hx, rfl⟩ := mem_map.1 he
    have hdir : x.length + 1 < 16 ^ 8 ∧ x ≠ Image.trailer.name := by
      rcases mem_archiveDirs.1 hx with hx | ⟨y, hy, hxy⟩
      · have hmem := mem_append_right (files.map fst) hx
        exact ⟨h.length x hmem, (h.trailer x hmem).1⟩
      · refine ⟨?_, fun heq => (h.trailer y hy).2 (heq ▸ hxy)⟩
        have hlen := h.length y hy
        obtain ⟨r, rfl⟩ := mem_above_iff.1 hxy
        rw [length_append] at hlen
        omega
    exact ⟨fits_of_name hdir.1 (by decide), hdir.2⟩
  · rcases mem_append.1 he with he | he
    · obtain ⟨f, hf, rfl⟩ := mem_map.1 he
      exact ⟨h.files_fit f hf, (h.trailer f.1 (mem_append_left _ (mem_map_of_mem hf))).1⟩
    · rw [mem_singleton.1 he]
      exact ⟨⟨by decide, by decide, by decide, by decide, by decide⟩, by decide⟩

/-- **The archive is read back**: the reader gives the directories, their parents and those of the
files, the files and `dev/console`; every record starts at a multiple of 4; and every entry but the
last, which is `dev/console`, comes after its parents. -/
theorem archive_read_back (dirs : List Text) (files : List (Text × Text × ℕ))
    (h : Storable dirs files) :
    (∀ x, x ∈ cpioNames (cpioArchive dirs files) ↔ x ∈ dirs ∨
      (∃ y ∈ files.map fst ++ dirs, x ∈ above y) ∨ x ∈ files.map fst ∨ x = console.name) ∧
    (∀ before e after, entries dirs files ++ [trailer] = before ++ e :: after →
      (records before 1).length % 4 = 0 ∧
      ∃ post, cpioArchive dirs files =
        records before 1 ++ (cpioRecord e (1 + before.length) ++ post)) ∧
    ∀ before e after, entries dirs files = before ++ e :: after → after ≠ [] →
      ∀ d ∈ above e.name, dirEntry d ∈ before := by
  have hinodes := h.inodes
  refine ⟨fun x => ?_, fun before e after heq => ⟨?_, records after (1 + before.length + 1), ?_⟩,
    fun before e after heq hlast d => parents_before heq hlast⟩
  · have hroom : (entries dirs files).length ≤ (cpioArchive dirs files).length := by
      have hlen := length_le_records (entries dirs files ++ [trailer]) 1
      rw [length_append, ← cpioArchive] at hlen
      omega
    have hread : cpioNames (cpioArchive dirs files) = (entries dirs files).map Entry.name :=
      @namesFrom_records _ (fun e he => h.entries he) _ (by omega) [] rfl _
        (Nat.lt_succ_of_le hroom)
    rw [hread]
    simp [Image.entries, mem_archiveDirs, dirEntry, fileEntry, or_assoc]
  · refine length_records_mod (fun e' he' => ?_) ?_
    · have hmem := heq ▸ mem_append_left (e :: after) he'
      rcases mem_append.1 hmem with hmem | hmem
      · exact (h.entries hmem).1
      · exact mem_singleton.1 hmem ▸ trailer_fits
    · have hlen := congrArg List.length heq
      simp only [length_append, length_cons, length_nil] at hlen
      omega
  · rw [cpioArchive, heq, records_append]
    rfl

end

/-- One directory in another, and a file in it with a byte. -/
theorem archive_of_one : Storable [['a', '/', 'b']] [(['a', '/', 'c'], ['7'], 0o644)] ∧
    ∀ x, x ∈ cpioNames (cpioArchive [['a', '/', 'b']] [(['a', '/', 'c'], ['7'], 0o644)]) ↔
      x ∈ [['a', '/', 'b']] ∨ (∃ y ∈ [['a', '/', 'c'], ['a', '/', 'b']], x ∈ above y) ∨
        x ∈ [['a', '/', 'c']] ∨ x = console.name := by
  have h : Storable [['a', '/', 'b']] [(['a', '/', 'c'], ['7'], 0o644)] := by
    refine ⟨?_, ?_, by decide, ?_, by decide +kernel⟩
    · decide +kernel
    · decide +kernel
    · rw [forall_mem_singleton]
      exact ⟨by decide, by decide, by decide, by decide⟩
  exact ⟨h, (archive_read_back _ _ h).1⟩

/-- A directory below one with the name of the trailer: the reader ends at its parent. -/
theorem below_trailer_lost : "TRAILER!!!/x" ≠ trailer.name ∧
    "TRAILER!!!/x".toList ∉ cpioNames (cpioArchive ["TRAILER!!!/x".toList] []) := by
  decide +kernel

end Mu300.Image
