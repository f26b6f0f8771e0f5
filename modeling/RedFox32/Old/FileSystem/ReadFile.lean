import Mathlib.Data.Fin.VecNotation
import RedFox32.Old.FileSystem.ReadDirectory

/-!
`ReadFile` against what a path means.  No path is followed into a sub-directory: the first name that is one
keeps `ReadDirectory` in its copy loop.  What is left is a search of one block.
-/

namespace RedFox32.Old.FileSystem

open Machine

/-! ### Paths -/

/-- Five characters between slashes. -/
abbrev Component := {c : Name // ∀ j, c j ≠ 0 ∧ c j ≠ slash}

/-- A path of components, with or without a slash before the first. -/
structure Pathname where
  absolute : Bool
  first : Component
  rest : List Component

namespace Pathname

variable (p : Pathname)

/-- The names of the components. -/
def names : List Name := (p.first :: p.rest).map Subtype.val

/-- The name of the last component. -/
def lastName : Name := (p.rest.getLastD p.first).val

/-- The names of the directories that the path goes through. -/
def directories : List Name := p.names.dropLast

/-- Where the first component starts. -/
def start : ℕ := if p.absolute then 1 else 0

end Pathname

/-- The components stand in the memory from `pos`, with a slash after each but the last. -/
def StoredFrom (path : ℕ → Byte) : ℕ → Component → List Component → Prop
  | pos, c, [] => nameAt path pos = c.val ∧ path (pos + 5) = 0
  | pos, c, c' :: cs => nameAt path pos = c.val ∧ path (pos + 5) = slash ∧ StoredFrom path (pos + 6) c' cs

/-- The characters at `Path` are those of the path. -/
structure Pathname.Stored (p : Pathname) (path : ℕ → Byte) : Prop where
  slash : p.absolute = true → path 0 = slash
  names : StoredFrom path p.start p.first p.rest

/-- The text of a list of components, with a zero at the end. -/
def textFrom : Component → List Component → ℕ → Byte
  | c, [], i => if h : i < 5 then c.val ⟨i, h⟩ else 0
  | c, c' :: cs, i => if h : i < 5 then c.val ⟨i, h⟩ else if i = 5 then slash else textFrom c' cs (i - 6)

/-- The text of a path. -/
def Pathname.text (p : Pathname) (i : ℕ) : Byte :=
  if i < p.start then slash else textFrom p.first p.rest (i - p.start)

theorem storedFrom_text {path : ℕ → Byte} {pos : ℕ} {c : Component} {cs : List Component}
    (h : ∀ i, path (pos + i) = textFrom c cs i) : StoredFrom path pos c cs := by
  induction cs generalizing pos c with
  | nil =>
    refine ⟨funext fun j => (h j).trans ?_, h 5⟩
    exact dif_pos j.isLt
  | cons c' cs ih =>
    refine ⟨funext fun j => (h j).trans ?_, h 5, ih fun i => ?_⟩
    · exact dif_pos j.isLt
    · rw [Nat.add_assoc, h]
      rw [textFrom, dif_neg (by omega), if_neg (by omega), Nat.add_sub_cancel_left]

theorem Pathname.stored_text (p : Pathname) : p.Stored p.text := by
  refine ⟨fun habs => if_pos ?_, storedFrom_text fun i => ?_⟩
  · rw [Pathname.start, if_pos habs]
    exact Nat.one_pos
  · unfold Pathname.text
    rw [if_neg (by omega), Nat.add_sub_cancel_left]

/-! ### What a path names -/

/-- The names lead from a directory, all its blocks searched, to the entry `f`. -/
inductive Resolves (disk : ℕ → Block) : List Block → List Name → FSFileDescriptor → Prop
  | file {bs : List Block} {c : Name} {f : FSFileDescriptor} (hf : named bs c = some f) :
      Resolves disk bs [c] f
  | directory {bs bs' : List Block} {l : Block} {c c' : Name} {cs : List Name} {e f : FSFileDescriptor}
      (he : subdirectory bs c = some e) (hlba : e.startSector.toNat < 2880)
      (hchain : Chain disk (disk e.startSector.toNat) bs' l) (hrest : Resolves disk bs' (c' :: cs) f) :
      Resolves disk bs (c :: c' :: cs) f

/-- **What `ReadFile` is for**: whatever the state, it returns with the descriptor of the file that the path
names, and leaves `F` as it is when the path names none. -/
def Meets (malloc : Word → Word) (disk : ℕ → Block) (root : Block) (bs : List Block) (inDir : Byte)
    (p : Pathname) : Prop :=
  ∀ s : State, s.drive.disk = disk → p.Stored s.path →
    ∃ s', Returns (fun fuel => readFile malloc root inDir fuel s) s' ∧
      (∀ f, Resolves disk bs p.names f → s'.file.descriptor = f) ∧
      ((∀ f, ¬ Resolves disk bs p.names f) → s'.file = s.file)

/-- The entry of the one block `b` with the name is what the path names, and its sectors end before the
16-bit counter does. -/
def Answers (disk : ℕ → Block) (bs : List Block) (p : Pathname) (b : Block) (name : Name) : Prop :=
  (∀ f, Resolves disk bs p.names f ↔ named [b] name = some f) ∧
    ∀ f, named [b] name = some f → f.startSector.toNat + f.sectorCount.toNat < 2 ^ 16

/-- `ReadFile` looks no directory up. -/
def Pathname.Direct (p : Pathname) (inDir : Byte) : Prop :=
  inDir ≠ 0 ∨ (p.absolute = false ∧ p.rest = [])

/-- No name on the way is that of a sub-directory where `ReadFile` looks for it. -/
def Pathname.Passes (p : Pathname) (bs : List Block) (l : Block) : Prop :=
  subdirectory bs p.first.val = none ∧ ∀ c ∈ p.directories, subdirectory [l] c = none

/-- The one block `b` has the entry with the name that the whole directory has, and its sectors end before
the 16-bit counter does. -/
def Shown (bs : List Block) (b : Block) (name : Name) : Prop :=
  named [b] name = named bs name ∧
    ∀ f, named [b] name = some f → f.startSector.toNat + f.sectorCount.toNat < 2 ^ 16

/-- The paths that `ReadFile` reads as it should.  A single name must show in the first block of the root
directory, or in the last one after a slash, and then it may not be that of a sub-directory.  Several names
must lead nowhere, and the last one must not be in the last block; if `InDir` happens not to be zero, the
first block must answer for the path with the first name. -/
def Agrees (disk : ℕ → Block) (root : Block) (bs : List Block) (l : Block) (inDir : Byte) (p : Pathname) :
    Prop :=
  if p.rest = [] then
    (p.Direct inDir → Shown bs root p.first.val) ∧
      (¬ p.Direct inDir → subdirectory bs p.first.val = none ∧ Shown bs l p.first.val)
  else
    (inDir = 0 → p.Passes bs l ∧ named [l] p.lastName = none) ∧
      (inDir ≠ 0 → Answers disk bs p root p.first.val)

/-! ### The path -/

section Path

variable {path : ℕ → Byte} {pos stop : ℕ} {c : Component} {cs : List Component} {p : Pathname}

theorem StoredFrom.name (h : StoredFrom path pos c cs) : nameAt path pos = c.val := by
  cases cs with
  | nil => exact h.1
  | cons c' cs => exact h.1

theorem StoredFrom.char (h : StoredFrom path pos c cs) (j : ℕ) (hj : j < 5) :
    path (pos + j) ≠ slash ∧ path (pos + j) ≠ 0 := by
  have hchar : path (pos + j) = c.val ⟨j, hj⟩ := congrFun h.name ⟨j, hj⟩
  rw [hchar]
  exact (c.property _).symm

theorem StoredFrom.update (h : StoredFrom path pos c cs) (hstop : stop < pos) (v : Byte) :
    StoredFrom (Function.update path stop v) pos c cs := by
  induction cs generalizing pos c with
  | nil =>
    obtain ⟨hname, hend⟩ := h
    refine ⟨?_, ?_⟩
    · rw [← hname]
      funext j
      exact Function.update_of_ne (by omega) _ _
    · rw [← hend]
      exact Function.update_of_ne (by omega) _ _
  | cons c' cs ih =>
    obtain ⟨hname, hslash, hrest⟩ := h
    refine ⟨?_, ?_, ih hrest (by omega)⟩
    · rw [← hname]
      funext j
      exact Function.update_of_ne (by omega) _ _
    · rw [← hslash]
      exact Function.update_of_ne (by omega) _ _

/-- A store behind the name. -/
theorem nameAt_update (path : ℕ → Byte) (pos : ℕ) (v : Byte) :
    nameAt (Function.update path (pos + 5) v) pos = nameAt path pos := by
  funext j
  exact Function.update_of_ne (by omega) _ _

theorem skipSlashes_stop (h : path pos ≠ slash) :
    Returns (fun fuel => skipSlashes path fuel pos) pos := by
  refine (settles_succ (g := fun _ => some pos) fun fuel => ?_).2 (settles_const _)
  unfold skipSlashes
  rw [if_neg h]

theorem skipSlashes_slash {r : Option ℕ} (h : path pos = slash) :
    Settles (fun fuel => skipSlashes path fuel pos) r ↔
      Settles (fun fuel => skipSlashes path fuel (pos + 1)) r := by
  refine settles_succ fun fuel => ?_
  conv_lhs => unfold skipSlashes
  rw [if_pos h]

theorem skipSlashes_stored (h : p.Stored path) :
    Returns (fun fuel => skipSlashes path fuel 0) p.start := by
  have hchar : path p.start ≠ slash := (h.names.char 0 (by omega)).1
  unfold Pathname.start at hchar ⊢
  cases habs : p.absolute with
  | false =>
    rw [habs] at hchar
    exact skipSlashes_stop hchar
  | true =>
    rw [habs] at hchar
    exact (skipSlashes_slash (h.slash habs)).2 (skipSlashes_stop hchar)

theorem scanName_slash (h : path pos = slash) :
    Returns (fun fuel => scanName path fuel pos) (some pos) := by
  refine (settles_succ (g := fun _ => some (some pos)) fun fuel => ?_).2 (settles_const _)
  unfold scanName
  rw [if_pos h]

theorem scanName_end (h : path pos = 0) : Returns (fun fuel => scanName path fuel pos) none := by
  refine (settles_succ (g := fun _ => some none) fun fuel => ?_).2 (settles_const _)
  unfold scanName
  rw [if_neg (by rw [h]; decide), if_pos h]

theorem scanName_char {r : Option (Option ℕ)} (h : path pos ≠ slash ∧ path pos ≠ 0) :
    Settles (fun fuel => scanName path fuel pos) r ↔
      Settles (fun fuel => scanName path fuel (pos + 1)) r := by
  refine settles_succ fun fuel => ?_
  conv_lhs => unfold scanName
  rw [if_neg h.1, if_neg h.2]

/-- The end of the name that starts at `pos`. -/
theorem scanName_name {r : Option (Option ℕ)} (h : StoredFrom path pos c cs) :
    Settles (fun fuel => scanName path fuel pos) r ↔
      Settles (fun fuel => scanName path fuel (pos + 5)) r := by
  have h0 : path pos ≠ slash ∧ path pos ≠ 0 := h.char 0 (by omega)
  rw [scanName_char h0, scanName_char (h.char 1 (by omega)), scanName_char (h.char 2 (by omega)),
    scanName_char (h.char 3 (by omega)), scanName_char (h.char 4 (by omega))]

end Path

/-! ### The way through the path -/

section Walk

variable {disk : ℕ → Block} {root l : Block} {bs : List Block} {w : Walker} {inDir : Byte}

theorem walkPath_inDir (h : inDir ≠ 0) (w : Walker) :
    Returns (fun fuel => walkPath inDir fuel w) w := by
  refine (settles_succ (g := fun _ => some w) fun fuel => ?_).2 (settles_const _)
  unfold walkPath
  rw [if_pos h]

/-- The rest of a round, when the next slash is found. -/
def walkRound (w : Walker) (fuel : ℕ) : Option ℕ → Option Walker
  | none => some w
  | some stop =>
    let path := Function.update w.path stop 0
    (readDirectory (nameAt path w.start) fuel w.drive w.dir).bind fun (d, dir) =>
      walkPath 0 fuel ⟨d, dir, path, stop + 1, stop + 1⟩

theorem walkPath_succ (w : Walker) (fuel : ℕ) :
    walkPath 0 (fuel + 1) w = (scanName w.path fuel w.stop).bind (walkRound w fuel) := by
  unfold walkPath
  rw [if_neg (not_not.2 rfl)]
  rfl

theorem walkPath_end (h : Returns (fun fuel => scanName w.path fuel w.stop) none) :
    Returns (fun fuel => walkPath 0 fuel w) w :=
  (settles_round (walkPath_succ w) h).2 (settles_const (some w))

/-- **One round of the walk**: a sub-directory with the name keeps it; otherwise it goes on behind the
slash, from the last block. -/
theorem walkPath_slash {stop : ℕ} {c : Name} (hchain : Chain w.drive.disk w.dir bs l)
    (hscan : Returns (fun fuel => scanName w.path fuel w.stop) (some stop))
    (hname : nameAt (Function.update w.path stop 0) w.start = c) :
    (subdirectory bs c ≠ none → Diverges fun fuel => walkPath 0 fuel w) ∧
    (subdirectory bs c = none → ∃ d : Drive, d.disk = w.drive.disk ∧ ∀ r,
      Settles (fun fuel => walkPath 0 fuel w) r ↔ Settles (fun fuel =>
        walkPath 0 fuel ⟨d, l, Function.update w.path stop 0, stop + 1, stop + 1⟩) r) := by
  have hround : ∀ r, Settles (fun fuel => walkPath 0 fuel w) r ↔
      Settles (fun fuel => walkRound w fuel (some stop)) r :=
    fun r => settles_round (walkPath_succ w) hscan
  obtain ⟨hfound, hpassed⟩ := @readDirectory_spec _ _ _ _ _ c hchain rfl
  rw [← hname] at hfound hpassed ⊢
  refine ⟨fun hsome => ?_, fun hnone => ?_⟩
  · apply (hround none).2
    exact diverges_bind (hfound hsome)
  · obtain ⟨d, hd, -, hret⟩ := hpassed hnone
    refine ⟨d, hd, fun r => ?_⟩
    exact (hround r).trans (settles_bind_some hret)

/-- The directories of a path that are looked up. -/
theorem dropLast_names (c c' : Component) (cs : List Component) :
    ((c :: c' :: cs).map Subtype.val).dropLast = c.val :: ((c' :: cs).map Subtype.val).dropLast := rfl

/-- **The walk from the last block** of the directory: it goes past every name that is not that of a
sub-directory there, and ends at the last name. -/
theorem walkPath_last {c : Component} {cs : List Component} (hnext : w.dir.nextDescriptorLBA = 0)
    (hstop : w.stop = w.start) (h : StoredFrom w.path w.start c cs) :
    ((¬ ∀ n ∈ ((c :: cs).map Subtype.val).dropLast, subdirectory [w.dir] n = none) →
      Diverges fun fuel => walkPath 0 fuel w) ∧
    ((∀ n ∈ ((c :: cs).map Subtype.val).dropLast, subdirectory [w.dir] n = none) →
      ∃ w', Returns (fun fuel => walkPath 0 fuel w) w' ∧ w'.dir = w.dir ∧
        nameAt w'.path w'.start = (cs.getLastD c).val) := by
  induction cs generalizing w c with
  | nil =>
    have hend : Returns (fun fuel => scanName w.path fuel w.stop) none := by
      rw [hstop]
      exact (scanName_name h).2 (scanName_end h.2)
    refine ⟨fun hnot => ?_, fun _ => ⟨w, walkPath_end hend, rfl, h.1⟩⟩
    exact absurd (by simp) hnot
  | cons c' cs ih =>
    have hscan : Returns (fun fuel => scanName w.path fuel w.stop) (some (w.start + 5)) := by
      rw [hstop]
      exact (scanName_name h).2 (scanName_slash h.2.1)
    have hname := (nameAt_update w.path w.start 0).trans h.name
    obtain ⟨hfound, hpassed⟩ := walkPath_slash (Chain.last hnext) hscan hname
    rw [dropLast_names, List.forall_mem_cons]
    by_cases hc : subdirectory [w.dir] c.val = none
    · obtain ⟨d, -, hd⟩ := hpassed hc
      obtain ⟨ihfound, ihpassed⟩ := ih (w := ⟨d, w.dir, Function.update w.path (w.start + 5) 0,
        w.start + 6, w.start + 6⟩) hnext rfl (h.2.2.update (by omega) 0)
      refine ⟨fun hnot => ?_, fun hall => ?_⟩
      · apply (hd none).2
        exact ihfound fun hall => hnot ⟨hc, hall⟩
      · obtain ⟨w', hw', hdir, hlast⟩ := ihpassed hall.2
        refine ⟨w', (hd (some w')).2 hw', hdir, ?_⟩
        rw [hlast, List.getLastD_cons]
    · exact ⟨fun _ => hfound hc, fun hall => absurd hall.1 hc⟩

/-- The walk from the first block, which looks the name `c` up in the whole directory. -/
theorem walkPath_chain {stop : ℕ} {c : Name} {c' : Component} {cs : List Component}
    (hchain : Chain w.drive.disk w.dir bs l)
    (hscan : Returns (fun fuel => scanName w.path fuel w.stop) (some stop))
    (hname : nameAt (Function.update w.path stop 0) w.start = c)
    (h : StoredFrom (Function.update w.path stop 0) (stop + 1) c' cs) :
    (¬ (subdirectory bs c = none ∧
        ∀ n ∈ ((c' :: cs).map Subtype.val).dropLast, subdirectory [l] n = none) →
      Diverges fun fuel => walkPath 0 fuel w) ∧
    ((subdirectory bs c = none ∧
        ∀ n ∈ ((c' :: cs).map Subtype.val).dropLast, subdirectory [l] n = none) →
      ∃ w', Returns (fun fuel => walkPath 0 fuel w) w' ∧ w'.dir = l ∧
        nameAt w'.path w'.start = (cs.getLastD c').val) := by
  obtain ⟨hfound, hpassed⟩ := walkPath_slash hchain hscan hname
  by_cases hc : subdirectory bs c = none
  · obtain ⟨d, -, hd⟩ := hpassed hc
    obtain ⟨hstuck, hends⟩ := walkPath_last
      (w := ⟨d, l, Function.update w.path stop 0, stop + 1, stop + 1⟩) hchain.last_next rfl h
    refine ⟨fun hnot => ?_, fun hall => ?_⟩
    · apply (hd none).2
      exact hstuck fun hall => hnot ⟨hc, hall⟩
    · obtain ⟨w', hw', hlast⟩ := hends hall.2
      exact ⟨w', (hd (some w')).2 hw', hlast⟩
  · exact ⟨fun _ => hfound hc, fun hall => absurd hall.1 hc⟩

/-- **The walk through the path**, when `ReadFile` looks a directory up. -/
theorem walkPath_spec {d : Drive} {path : ℕ → Byte} {p : Pathname} (hchain : Chain d.disk root bs l)
    (h : p.Stored path) (hdirect : ¬ p.Direct 0) :
    (¬ p.Passes bs l → Diverges fun fuel => walkPath 0 fuel ⟨d, root, path, p.start, 0⟩) ∧
    (p.Passes bs l → ∃ w, Returns (fun fuel => walkPath 0 fuel ⟨d, root, path, p.start, 0⟩) w ∧
      w.dir = l ∧ nameAt w.path w.start = p.lastName) := by
  obtain ⟨habs, hnames⟩ := h
  obtain ⟨absolute, first, rest⟩ := p
  cases absolute with
  | true =>
    -- The slash before the first name makes the first round look up the first name, and the second again.
    have hstored := hnames.update (by decide : 0 < 1) 0
    exact walkPath_chain (w := ⟨d, root, path, 1, 0⟩) hchain (scanName_slash (habs rfl)) hstored.name
      hstored
  | false =>
    cases rest with
    | nil => exact absurd (.inr ⟨rfl, rfl⟩) hdirect
    | cons c cs =>
      have hscan : Returns (fun fuel => scanName path fuel 0) (some 5) :=
        (scanName_name hnames).2 (scanName_slash hnames.2.1)
      have hname := (nameAt_update path 0 0).trans hnames.name
      obtain ⟨hstuck, hends⟩ := walkPath_chain (w := ⟨d, root, path, 0, 0⟩) hchain hscan hname
        (hnames.2.2.update (by omega) 0)
      have hpasses : Pathname.Passes ⟨false, first, c :: cs⟩ bs l ↔ subdirectory bs first.val = none ∧
          ∀ n ∈ ((c :: cs).map Subtype.val).dropLast, subdirectory [l] n = none := by
        unfold Pathname.Passes Pathname.directories Pathname.names
        rw [dropLast_names, List.forall_mem_cons]
        exact and_congr_right fun hnone => and_iff_right (hchain.subdirectory_last hnone)
      rw [hpasses]
      refine ⟨hstuck, fun hall => ?_⟩
      obtain ⟨w, hw, hdir, hlast⟩ := hends hall
      refine ⟨w, hw, hdir, ?_⟩
      rw [hlast, Pathname.lastName, List.getLastD_cons]

end Walk

/-! ### The entry and its sectors -/

/-- A descriptor that is not this one. -/
def FSFileDescriptor.other (f : FSFileDescriptor) : FSFileDescriptor :=
  { f with startSector := f.startSector + 1 }

theorem FSFileDescriptor.other_ne (f : FSFileDescriptor) : f.other ≠ f := by
  intro h
  have hstart : f.startSector + 1 = f.startSector := congrArg startSector h
  bv_omega

section File

variable {malloc : Word → Word} {limit : ℕ} {data : Word} {b : Block} {name : Name}
  {f : FSFileDescriptor} {s : State}

/-- A 16-bit counter never reaches a limit of 17 bits. -/
theorem loadData_diverges (h : 2 ^ 16 ≤ limit) (lba : BitVec 16) (d : Drive) (m : Mem) :
    Diverges fun fuel => loadData limit data fuel lba d m := by
  have hnone : ∀ fuel, loadData limit data fuel lba d m = none := by
    intro fuel
    induction fuel generalizing lba d m with
    | zero => rfl
    | succ fuel ih =>
      have hlba := lba.isLt
      unfold loadData
      rw [if_pos (by omega)]
      exact ih _ _ _
  exact Filter.Eventually.of_forall hnone

theorem loadData_returns (h : limit < 2 ^ 16) (lba : BitVec 16) (d : Drive) (m : Mem) :
    ∃ r, Returns (fun fuel => loadData limit data fuel lba d m) r := by
  induction hk : limit - lba.toNat generalizing lba d m with
  | zero =>
    refine ⟨(d, m), (settles_succ (g := fun _ => some (d, m)) fun fuel => ?_).2 (settles_const _)⟩
    unfold loadData
    rw [if_neg (by omega)]
  | succ k ih =>
    have hnext : (lba + 1).toNat = lba.toNat + 1 := by bv_omega
    obtain ⟨r, hr⟩ := ih (lba + 1) (d.readLBA lba) (storeBuffer m data (d.readLBA lba).buffer) (by omega)
    refine ⟨r, (settles_succ fun fuel => ?_).2 hr⟩
    conv_lhs => unfold loadData
    rw [if_pos (by omega)]

theorem findFile_none (h : named [b] name = none) :
    Returns (fun fuel => findFile malloc b name fuel s) s := by
  unfold findFile
  rw [find?_name, h]
  exact settles_const _

theorem findFile_some (h : named [b] name = some f) :
    (f.startSector.toNat + f.sectorCount.toNat < 2 ^ 16 →
      ∃ s', Returns (fun fuel => findFile malloc b name fuel s) s' ∧ s'.file.descriptor = f ∧
        s'.console = s.console ++ [("Match!\n", 0x0B)]) ∧
    (2 ^ 16 ≤ f.startSector.toNat + f.sectorCount.toNat →
      Diverges fun fuel => findFile malloc b name fuel s) := by
  unfold findFile
  rw [find?_name, h]
  refine ⟨fun hlt => ?_, fun hle => diverges_bind (loadData_diverges hle _ _ _)⟩
  obtain ⟨r, hr⟩ := loadData_returns hlt f.startSector s.drive s.mem
  exact ⟨_, (settles_bind_some hr).2 (settles_const _), rfl, rfl⟩

end File

/-! ### Reading a file -/

section ReadFile

variable {malloc : Word → Word} {disk : ℕ → Block} {root l b : Block} {bs : List Block} {inDir : Byte}
  {p : Pathname} {name : Name}

/-- `ReadFile` does not end when the walk does not. -/
theorem readFile_diverges {s : State} (h : p.Stored s.path)
    (hwalk : Diverges fun fuel => walkPath inDir fuel ⟨s.drive, root, s.path, p.start, 0⟩) :
    Diverges fun fuel => readFile malloc root inDir fuel s :=
  (settles_bind_some (skipSlashes_stored h)).2 (diverges_bind hwalk)

/-- `ReadFile` after the walk is the search of one block. -/
theorem readFile_walked {s : State} {w : Walker} {r : Option State} (h : p.Stored s.path)
    (hwalk : Returns (fun fuel => walkPath inDir fuel ⟨s.drive, root, s.path, p.start, 0⟩) w) :
    Settles (fun fuel => readFile malloc root inDir fuel s) r ↔
      Settles (fun fuel => findFile malloc w.dir (nameAt w.path w.start) fuel
        { s with drive := w.drive, path := w.path }) r :=
  (settles_bind_some (skipSlashes_stored h)).trans (settles_bind_some hwalk)

section Answers

variable (hreads : ∀ s : State, s.drive.disk = disk → p.Stored s.path →
  ∃ s₁, s₁.file = s.file ∧ ∀ r, Settles (fun fuel => readFile malloc root inDir fuel s) r ↔
    Settles (fun fuel => findFile malloc b name fuel s₁) r)

include hreads

/-- A block that `ReadFile` comes down to answers for the path if `ReadFile` does what it is for. -/
theorem answers_of_meets (hmeets : Meets malloc disk root bs inDir p) : Answers disk bs p b name := by
  -- Any `F` will do at the start; the ones below differ from what the block holds, or the path names.
  have hrun : ∀ F : FILE, ∃ s₁ s', s₁.file = F ∧
      Returns (fun fuel => findFile malloc b name fuel s₁) s' ∧
      (∀ f, Resolves disk bs p.names f → s'.file.descriptor = f) ∧
      ((∀ f, ¬ Resolves disk bs p.names f) → s'.file = F) := by
    intro F
    let s : State := ⟨⟨disk, disk 0, []⟩, fun _ => 0, p.text, F, []⟩
    obtain ⟨s₁, hfile, hreads⟩ := hreads s rfl p.stored_text
    obtain ⟨s', hret, hnames⟩ := hmeets s rfl p.stored_text
    exact ⟨s₁, s', hfile, (hreads _).1 hret, hnames⟩
  unfold Answers
  cases hb : named [b] name with
  | none =>
    refine ⟨fun f => iff_of_false (fun hf => ?_) nofun, nofun⟩
    obtain ⟨s₁, s', hfile, hret, hdesc, -⟩ := hrun ⟨f.other, 0, 0⟩
    have hs' : s₁ = s' := Option.some.inj ((findFile_none hb).unique hret)
    have hother : s'.file.descriptor = f.other := by rw [← hs', hfile]
    exact f.other_ne (hother.symm.trans (hdesc f hf))
  | some e =>
    obtain ⟨s₁, s', hfile, hret, hdesc, hkept⟩ := hrun ⟨e.other, 0, 0⟩
    obtain ⟨hends, hstuck⟩ := @findFile_some malloc b name e s₁ hb
    have hlt : e.startSector.toNat + e.sectorCount.toNat < 2 ^ 16 := by
      by_contra hle
      have hnone := (hstuck (not_lt.1 hle)).unique hret
      cases hnone
    obtain ⟨s'', hret', he, -⟩ := hends hlt
    have hs' : s'' = s' := Option.some.inj (hret'.unique hret)
    rw [hs'] at he
    have hres : ∃ f, Resolves disk bs p.names f := by
      by_contra hno
      have hother : s'.file.descriptor = e.other := by rw [hkept (not_exists.1 hno)]
      exact e.other_ne (hother.symm.trans he)
    obtain ⟨f, hf⟩ := hres
    have hef : e = f := he.symm.trans (hdesc f hf)
    refine ⟨fun g => ⟨fun hg => ?_, ?_⟩, ?_⟩
    · rw [← hdesc g hg, he]
    · rintro ⟨⟩
      rw [hef]
      exact hf
    · rintro _ ⟨⟩
      exact hlt

theorem meets_of_answers (hanswers : Answers disk bs p b name) : Meets malloc disk root bs inDir p := by
  obtain ⟨hiff, hbound⟩ := hanswers
  intro s hdisk hstored
  obtain ⟨s₁, hfile, hreads⟩ := hreads s hdisk hstored
  cases hb : named [b] name with
  | none =>
    refine ⟨s₁, (hreads _).2 (findFile_none hb), fun f hf => ?_, fun _ => hfile⟩
    rw [hiff, hb] at hf
    cases hf
  | some e =>
    obtain ⟨s', hret, he, -⟩ := (findFile_some hb).1 (hbound e hb)
    refine ⟨s', (hreads _).2 hret, fun f hf => ?_, fun hno => ?_⟩
    · rw [hiff, hb] at hf
      exact he.trans (Option.some.inj hf)
    · exact absurd ((hiff e).2 hb) (hno e)

/-- Where `ReadFile` comes down to the search of one block, it does what it is for exactly when that block
answers for the path. -/
theorem meets_iff_answers : Meets malloc disk root bs inDir p ↔ Answers disk bs p b name :=
  ⟨answers_of_meets hreads, meets_of_answers hreads⟩

end Answers

/-- Without a directory to look up, the walk is over at once. -/
theorem walkPath_direct {path : ℕ → Byte} {d : Drive} (h : p.Stored path) (hdirect : p.Direct inDir) :
    Returns (fun fuel => walkPath inDir fuel ⟨d, root, path, p.start, 0⟩) ⟨d, root, path, p.start, 0⟩ := by
  by_cases hdir : inDir = 0
  · obtain ⟨habs, hrest⟩ := hdirect.resolve_left (not_not.2 hdir)
    have hnames := h.names
    rw [hrest, Pathname.start, if_neg (by simp [habs])] at hnames
    rw [hdir]
    exact walkPath_end ((scanName_name hnames).2 (scanName_end hnames.2))
  · exact walkPath_inDir hdir _

/-- A sub-directory on the way keeps `ReadFile` from returning. -/
theorem not_meets_of_not_passes (hchain : Chain disk root bs l) (hdirect : ¬ p.Direct 0)
    (hpasses : ¬ p.Passes bs l) : ¬ Meets malloc disk root bs 0 p := by
  intro hmeets
  let s : State := ⟨⟨disk, disk 0, []⟩, fun _ => 0, p.text, ⟨⟨fun _ => 0, 0, 0, 0⟩, 0, 0⟩, []⟩
  obtain ⟨s', hret, -⟩ := hmeets s rfl p.stored_text
  have hstuck := (walkPath_spec (d := s.drive) hchain p.stored_text hdirect).1 hpasses
  have hnone := (readFile_diverges (s := s) p.stored_text hstuck).unique hret
  cases hnone

/-- `ReadFile` without a directory to look up searches the first block. -/
theorem meets_direct (hdirect : p.Direct inDir) :
    Meets malloc disk root bs inDir p ↔ Answers disk bs p root p.first.val := by
  refine meets_iff_answers fun s hdisk hstored => ?_
  have hwalk : Returns (fun fuel => walkPath inDir fuel ⟨s.drive, root, s.path, p.start, 0⟩) _ :=
    walkPath_direct hstored hdirect
  rw [← hstored.names.name]
  exact ⟨_, rfl, fun r => readFile_walked hstored hwalk⟩

/-- `ReadFile` with directories to look up searches the last block, if it gets there. -/
theorem meets_walked (hchain : Chain disk root bs l) (hdirect : ¬ p.Direct 0) :
    Meets malloc disk root bs 0 p ↔ p.Passes bs l ∧ Answers disk bs p l p.lastName := by
  by_cases hpasses : p.Passes bs l
  · rw [and_iff_right hpasses]
    refine meets_iff_answers fun s hdisk hstored => ?_
    rw [← hdisk] at hchain
    obtain ⟨w, hwalk, hwdir, hname⟩ := (walkPath_spec hchain hstored hdirect).2 hpasses
    rw [← hwdir, ← hname]
    exact ⟨{ s with drive := w.drive, path := w.path }, rfl, fun r => readFile_walked hstored hwalk⟩
  · exact iff_of_false (not_meets_of_not_passes hchain hdirect hpasses) fun h => hpasses h.1

theorem resolves_one {c : Name} {f : FSFileDescriptor} :
    Resolves disk bs [c] f ↔ named bs c = some f := by
  constructor
  · rintro ⟨hf⟩
    exact hf
  · exact .file

/-- A block answers for a single name when it has the entry that the directory has. -/
theorem answers_one (hrest : p.rest = []) :
    Answers disk bs p b p.first.val ↔ Shown bs b p.first.val := by
  have hnames : p.names = [p.first.val] := by
    rw [Pathname.names, hrest]
    rfl
  unfold Answers Shown
  rw [hnames]
  refine and_congr_left fun _ => ?_
  simp only [resolves_one]
  constructor
  · intro h
    apply Option.ext
    intro f
    exact (h f).symm
  · intro h f
    rw [h]

/-- A path of several components that `ReadFile` gets through names nothing, so the last block must not
have the last name. -/
theorem answers_of_passes (hpasses : p.Passes bs l) (hrest : p.rest ≠ []) :
    Answers disk bs p l p.lastName ↔ named [l] p.lastName = none := by
  obtain ⟨absolute, first, rest⟩ := p
  obtain ⟨c, cs, rfl⟩ := List.exists_cons_of_ne_nil hrest
  have hnone : ∀ f, ¬ Resolves disk bs (Pathname.names ⟨absolute, first, c :: cs⟩) f := by
    rintro f (hf | ⟨he, -, -, -⟩)
    rw [hpasses.1] at he
    cases he
  constructor
  · rintro ⟨hiff, -⟩
    apply Option.eq_none_iff_forall_ne_some.2
    intro f hf
    exact hnone f ((hiff f).2 hf)
  · intro hl
    unfold Answers
    rw [hl]
    exact ⟨fun f => iff_of_false (hnone f) nofun, nofun⟩

/-- **`ReadFile`** does what it is for exactly on the paths that agree with the blocks it searches. -/
theorem readFile_meets_iff (hchain : Chain disk root bs l) :
    Meets malloc disk root bs inDir p ↔ Agrees disk root bs l inDir p := by
  unfold Agrees
  by_cases hrest : p.rest = []
  · rw [if_pos hrest]
    by_cases hdirect : p.Direct inDir
    · rw [imp_iff_right hdirect, and_iff_left (absurd hdirect), meets_direct hdirect, answers_one hrest]
    · obtain rfl : inDir = 0 := by
        by_contra hne
        exact hdirect (.inl hne)
      have hlast : p.lastName = p.first.val := by rw [Pathname.lastName, hrest, List.getLastD_nil]
      have hpasses : p.Passes bs l ↔ subdirectory bs p.first.val = none := by
        unfold Pathname.Passes Pathname.directories Pathname.names
        rw [hrest]
        simp
      rw [and_iff_right fun h => absurd h hdirect, imp_iff_right hdirect, meets_walked hchain hdirect,
        hpasses, hlast, answers_one hrest]
  · rw [if_neg hrest]
    by_cases hdir : inDir = 0
    · subst hdir
      have hdirect : ¬ p.Direct 0 := by
        rintro (hne | ⟨-, hnil⟩)
        · exact hne rfl
        · exact hrest hnil
      rw [imp_iff_right rfl, and_iff_left (absurd rfl), meets_walked hchain hdirect]
      exact and_congr_right fun hpasses => answers_of_passes hpasses hrest
    · rw [and_iff_right fun h => absurd h hdir, imp_iff_right hdir, meets_direct (.inl hdir)]

end ReadFile

/-! ### A file in a sub-directory -/

/-- A block that starts with the bytes and is zero behind them. -/
def blockOf (bytes : List Byte) : Block := fun i => bytes.getD i 0

/-- A block with the file `FILEA`, which has the one sector 6. -/
def fileBlock : Block := blockOf [0x46, 0x49, 0x4C, 0x45, 0x41, 0x01, 6, 0, 1, 0]

/-- A block with the sub-directory `DIRAA`, whose first block is sector 5. -/
def directoryBlock : Block := blockOf [0x44, 0x49, 0x52, 0x41, 0x41, 0x20, 5, 0, 1, 0]

/-- A disk with the file in sector 5. -/
def fileDisk (lba : ℕ) : Block := if lba = 5 then fileBlock else blockOf []

def fileA : Component := ⟨![0x46, 0x49, 0x4C, 0x45, 0x41], by decide⟩

def dirA : Component := ⟨![0x44, 0x49, 0x52, 0x41, 0x41], by decide⟩

theorem named_fileBlock :
    named [fileBlock] fileA.val = some (fileBlock.file 0) := rfl

theorem readFile_meets_iff_one :
    Meets (fun _ => 0x10000) fileDisk fileBlock [fileBlock] 0 ⟨false, fileA, []⟩ := by
  apply (readFile_meets_iff (.last (by decide))).2
  refine ⟨fun _ => ⟨rfl, fun f hf => ?_⟩, fun hnot => absurd (.inr ⟨rfl, rfl⟩) hnot⟩
  rw [named_fileBlock] at hf
  cases hf
  decide

/-- **A file in a sub-directory is never read**: the path `DIRAA/FILEA` names it, and `ReadFile` does not
return. -/
theorem directory_found_forever :
    Chain fileDisk directoryBlock [directoryBlock] directoryBlock ∧
      Resolves fileDisk [directoryBlock] [dirA.val, fileA.val] (fileBlock.file 0) ∧
      ¬ Meets (fun _ => 0x10000) fileDisk directoryBlock [directoryBlock] 0 ⟨false, dirA, [fileA]⟩ := by
  have hchain : Chain fileDisk directoryBlock [directoryBlock] directoryBlock := .last (by decide)
  have hdir : subdirectory [directoryBlock] dirA.val = some (directoryBlock.file 0) := rfl
  refine ⟨hchain, ?_, ?_⟩
  · exact .directory hdir (by decide) (.last (by decide)) (.file named_fileBlock)
  · refine not_meets_of_not_passes hchain ?_ fun hpasses => ?_
    · rintro (hne | ⟨-, hrest⟩)
      · exact hne rfl
      · cases hrest
    · have hnone := hpasses.1
      rw [hdir] at hnone
      cases hnone

end RedFox32.Old.FileSystem
