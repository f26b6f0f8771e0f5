import RedFox32.Machine.Fuel
import RedFox32.Old.FileSystem.Defs

/-!
Directories as the disk holds them, and what `ReadDirectory` makes of one: it does not end when the name is
that of a sub-directory, and stops at the last block when it is not.  Links that form a cycle it follows for
ever.
-/

namespace RedFox32.Old.FileSystem

open Machine

/-! ### Directories -/

/-- The directory whose first block is `b` has the blocks `bs`, the last of them `l`. -/
inductive Chain (disk : ℕ → Block) : Block → List Block → Block → Prop
  | last {b : Block} (hnext : b.nextDescriptorLBA = 0) : Chain disk b [b] b
  | link {b l : Block} {bs : List Block} (hnext : b.nextDescriptorLBA ≠ 0)
      (hlba : b.nextDescriptorLBA.toNat < 2880)
      (hrest : Chain disk (disk b.nextDescriptorLBA.toNat) bs l) : Chain disk b (b :: bs) l

/-- The entry of a list of blocks with the name: the first one, should there be several. -/
def named (bs : List Block) (name : Name) : Option FSFileDescriptor :=
  (bs.flatMap Block.files).find? fun f => f.name = name

/-- The sub-directory with the name. -/
def subdirectory (bs : List Block) (name : Name) : Option FSFileDescriptor :=
  (bs.flatMap Block.files).find? fun f => f.directory && f.name = name

section Lists

variable {disk : ℕ → Block} {b l : Block} {bs : List Block}

theorem Chain.last_next (h : Chain disk b bs l) : l.nextDescriptorLBA = 0 := by
  induction h with
  | last hnext => exact hnext
  | link _ _ _ ih => exact ih

theorem nameCompare_eq (a b : Name) : nameCompare a b = decide (a = b) := by
  rw [Bool.eq_iff_iff]
  simp [nameCompare, funext_iff]

theorem find?_name (b : Block) (name : Name) :
    (b.files.find? fun f => nameCompare f.name name) = named [b] name := by
  unfold named
  simp only [nameCompare_eq, List.flatMap_cons, List.flatMap_nil, List.append_nil]

theorem find?_directory (b : Block) (name : Name) :
    (b.files.find? fun f => f.directory && nameCompare f.name name) = subdirectory [b] name := by
  unfold subdirectory
  simp only [nameCompare_eq, List.flatMap_cons, List.flatMap_nil, List.append_nil]

theorem subdirectory_cons (b : Block) (bs : List Block) (name : Name) :
    subdirectory (b :: bs) name = (subdirectory [b] name).or (subdirectory bs name) := by
  unfold subdirectory
  simp only [List.flatMap_cons, List.flatMap_nil, List.append_nil, List.find?_append]

/-- A name that the directory does not have is not in its last block. -/
theorem Chain.subdirectory_last {name : Name} (h : Chain disk b bs l)
    (hnone : subdirectory bs name = none) : subdirectory [l] name = none := by
  induction h with
  | last _ => exact hnone
  | link _ _ _ ih =>
    rw [subdirectory_cons, Option.or_eq_none_iff] at hnone
    exact ih hnone.2

/-- The sectors that the blocks of a directory link to. -/
def links (bs : List Block) : List (BitVec 16) := bs.dropLast.map Block.nextDescriptorLBA

theorem Chain.links_cons (h : Chain disk b bs l) (c : Block) :
    links (c :: bs) = c.nextDescriptorLBA :: links bs := by
  have hne : bs ≠ [] := by
    cases h with
    | last => simp
    | link => simp
  unfold links
  rw [List.dropLast_cons_of_ne_nil hne, List.map_cons]

theorem Chain.unique {l' : Block} {bs' : List Block} (h : Chain disk b bs l) (h' : Chain disk b bs' l') :
    bs = bs' := by
  induction h generalizing bs' with
  | last hnext =>
    cases h' with
    | last => rfl
    | link hne => exact absurd hnext hne
  | link hne _ _ ih =>
    cases h' with
    | last hnext => exact absurd hnext hne
    | link _ _ hrest => rw [ih hrest]

/-- From a sector that a directory links to, what follows is a shorter directory. -/
theorem Chain.of_mem_links {lba : BitVec 16} (h : Chain disk b bs l) (hlba : lba ∈ links bs) :
    ∃ bs', Chain disk (disk lba.toNat) bs' l ∧ bs'.length < bs.length := by
  induction h with
  | last => simp [links] at hlba
  | @link b l bs _ _ hrest ih =>
    rw [hrest.links_cons, List.mem_cons] at hlba
    rcases hlba with rfl | hlba
    · exact ⟨bs, hrest, by simp⟩
    · obtain ⟨bs', hbs', hlt⟩ := ih hlba
      exact ⟨bs', hbs', hlt.trans (by simp)⟩

/-- **No sector twice**: a directory that has a last block is no cycle. -/
theorem Chain.links_nodup (h : Chain disk b bs l) : (links bs).Nodup := by
  induction h with
  | last => simp [links]
  | link _ _ hrest ih =>
    rw [hrest.links_cons, List.nodup_cons]
    refine ⟨fun hmem => ?_, ih⟩
    -- what follows the sector the second time would be shorter than what follows it the first time
    obtain ⟨bs', hbs', hlt⟩ := hrest.of_mem_links hmem
    rw [hrest.unique hbs'] at hlt
    exact absurd hlt (lt_irrefl _)

end Lists

/-! ### `ReadDirectory` -/

section ReadDirectory

variable {disk : ℕ → Block} {b l : Block} {bs : List Block} {d : Drive} {name : Name}

theorem readLBA_disk (lba : BitVec 16) : (d.readLBA lba).disk = d.disk := by
  unfold Drive.readLBA
  split
  · rfl
  · rfl

theorem readLBA_buffer {lba : BitVec 16} (h : lba.toNat < 2880) :
    (d.readLBA lba).buffer = d.disk lba.toNat := by
  unfold Drive.readLBA
  rw [if_neg (by omega)]

theorem readLBA_reads {lba : BitVec 16} (h : lba.toNat < 2880) :
    (d.readLBA lba).reads = d.reads ++ [lba] := by
  unfold Drive.readLBA
  rw [if_neg (by omega)]

/-- A sector that the disk does not have. -/
theorem readLBA_beyond {lba : BitVec 16} (h : 2880 ≤ lba.toNat) : d.readLBA lba = d := by
  unfold Drive.readLBA
  rw [if_pos h]

/-- The copy loop does not end. -/
theorem copyMatched_zero (buffer : Block) (fuel : ℕ) (dir : Block) :
    copyMatched buffer 0 fuel dir = none := by
  induction fuel generalizing dir with
  | zero => rfl
  | succ fuel ih =>
    unfold copyMatched
    rw [dif_pos (by omega)]
    exact ih _

theorem readDirectory_found {f : FSFileDescriptor} (h : subdirectory [b] name = some f) :
    Diverges fun fuel => readDirectory name fuel d b := by
  refine (settles_succ (g := fun _ => none) fun fuel => ?_).2 (settles_const none)
  unfold readDirectory
  rw [find?_directory, h]
  dsimp only
  rw [copyMatched_zero, Option.map_none]

theorem readDirectory_last (h : subdirectory [b] name = none) (hnext : b.nextDescriptorLBA = 0) :
    Returns (fun fuel => readDirectory name fuel d b) (d, b) := by
  refine (settles_succ (g := fun _ => some (d, b)) fun fuel => ?_).2 (settles_const _)
  unfold readDirectory
  rw [find?_directory, h]
  dsimp only
  rw [if_neg (not_not.2 hnext)]

theorem readDirectory_link {r : Option (Drive × Block)} (h : subdirectory [b] name = none)
    (hnext : b.nextDescriptorLBA ≠ 0) (hlba : b.nextDescriptorLBA.toNat < 2880) :
    Settles (fun fuel => readDirectory name fuel d b) r ↔
      Settles (fun fuel => readDirectory name fuel (d.readLBA b.nextDescriptorLBA)
        (d.disk b.nextDescriptorLBA.toNat)) r := by
  refine settles_succ fun fuel => ?_
  conv_lhs => unfold readDirectory
  rw [find?_directory, h]
  dsimp only
  rw [if_pos hnext, readLBA_buffer hlba]

/-- **`ReadDirectory`** does not end at the name of a sub-directory; at any other name it returns, with
the last block of the directory, and has read the sectors linked to. -/
theorem readDirectory_spec (h : Chain disk b bs l) (hd : d.disk = disk) :
    (subdirectory bs name ≠ none → Diverges fun fuel => readDirectory name fuel d b) ∧
    (subdirectory bs name = none → ∃ d', d'.disk = disk ∧ d'.reads = d.reads ++ links bs ∧
      Returns (fun fuel => readDirectory name fuel d b) (d', l)) := by
  induction h generalizing d with
  | @last b hnext =>
    refine ⟨fun hsome => ?_, fun hnone => ?_⟩
    swap
    · exact ⟨d, hd, by simp [links], readDirectory_last hnone hnext⟩
    obtain ⟨f, hf⟩ := Option.ne_none_iff_exists'.1 hsome
    exact readDirectory_found hf
  | @link b l bs hnext hlba hrest ih =>
    rw [subdirectory_cons]
    cases hb : subdirectory [b] name with
    | some f => exact ⟨fun _ => readDirectory_found hb, nofun⟩
    | none =>
      rw [Option.none_or]
      obtain ⟨ihsome, ihnone⟩ := ih ((readLBA_disk _).trans hd)
      rw [← hd] at ihsome ihnone
      refine ⟨fun hsome => (readDirectory_link hb hnext hlba).2 (ihsome hsome), fun hnone => ?_⟩
      obtain ⟨d', hd', hreads, hret⟩ := ihnone hnone
      refine ⟨d', hd'.trans hd, ?_, (readDirectory_link hb hnext hlba).2 hret⟩
      rw [hreads, readLBA_reads hlba, hrest.links_cons, List.append_assoc, List.singleton_append]

/-- A link to a sector that the disk does not have leads to what the buffer holds. -/
theorem readDirectory_beyond {r : Option (Drive × Block)} (h : subdirectory [b] name = none)
    (hlba : 2880 ≤ b.nextDescriptorLBA.toNat) :
    Settles (fun fuel => readDirectory name fuel d b) r ↔
      Settles (fun fuel => readDirectory name fuel d d.buffer) r := by
  have hnext : b.nextDescriptorLBA ≠ 0 := by
    intro hzero
    rw [hzero] at hlba
    simp at hlba
  refine settles_succ fun fuel => ?_
  conv_lhs => unfold readDirectory
  rw [find?_directory, h]
  dsimp only
  rw [if_pos hnext, readLBA_beyond hlba]

end ReadDirectory

/-! ### When `ReadDirectory` ends -/

/-- The block starts a directory that has a last block and no sub-directory with the name. -/
def Passes (disk : ℕ → Block) (name : Name) (b : Block) : Prop :=
  ∃ bs l, Chain disk b bs l ∧ subdirectory bs name = none

/-- The block passes; or its link is to a sector that the disk does not have, and what the buffer holds
passes. -/
def Ends (name : Name) (d : Drive) (b : Block) : Prop :=
  Passes d.disk name b ∨
    2880 ≤ b.nextDescriptorLBA.toNat ∧ subdirectory [b] name = none ∧ Passes d.disk name d.buffer

section Ends

variable {name : Name} {d d' : Drive} {b b' : Block}

theorem Passes.not_beyond (h : Passes d.disk name b) : ¬ 2880 ≤ b.nextDescriptorLBA.toNat := by
  obtain ⟨bs, l, hchain, -⟩ := h
  cases hchain with
  | last hnext =>
    rw [hnext]
    decide
  | link _ hlba => omega

/-- A run that ends has followed a directory to its last block. -/
theorem ends_of_readDirectory {fuel : ℕ} (h : readDirectory name fuel d b = some (d', b')) :
    Ends name d b := by
  induction fuel generalizing d b with
  | zero => cases h
  | succ fuel ih =>
    unfold readDirectory at h
    rw [find?_directory] at h
    cases hb : subdirectory [b] name with
    | some f =>
      rw [hb] at h
      dsimp only at h
      rw [copyMatched_zero] at h
      cases h
    | none =>
      rw [hb] at h
      dsimp only at h
      by_cases hnext : b.nextDescriptorLBA = 0
      · exact .inl ⟨[b], b, .last hnext, hb⟩
      rw [if_pos hnext] at h
      by_cases hlba : b.nextDescriptorLBA.toNat < 2880
      · -- the buffer holds the next block, so a link beyond the disk would lead back to it
        rw [readLBA_buffer hlba] at h
        have hrest := ih h
        unfold Ends at hrest
        rw [readLBA_disk, readLBA_buffer hlba] at hrest
        rcases hrest with ⟨bs, l, hchain, hnone⟩ | ⟨hbeyond, -, hpasses⟩
        · refine .inl ⟨b :: bs, l, .link hnext hlba hchain, ?_⟩
          rw [subdirectory_cons, hb, hnone]
          rfl
        · exact absurd hbeyond hpasses.not_beyond
      · rw [readLBA_beyond (not_lt.1 hlba)] at h
        rcases ih h with hpasses | ⟨hbeyond, -, hpasses⟩
        · exact .inr ⟨not_lt.1 hlba, hb, hpasses⟩
        · exact absurd hbeyond hpasses.not_beyond

/-- Where the links lead to a last block, every sector is read once. -/
theorem readDirectory_passes (h : Passes d.disk name b) :
    ∃ d' b', Returns (fun fuel => readDirectory name fuel d b) (d', b') ∧
      ∃ lbas, d'.reads = d.reads ++ lbas ∧ lbas.Nodup := by
  obtain ⟨bs, l, hchain, hnone⟩ := h
  obtain ⟨d', -, hreads, hret⟩ := (readDirectory_spec hchain rfl).2 hnone
  exact ⟨d', l, hret, links bs, hreads, hchain.links_nodup⟩

end Ends

/-- **`ReadDirectory`** ends, having read every sector at most once, exactly when the links lead to a last
block past no sub-directory with the name. -/
theorem readDirectory_ends_iff (name : Name) (d : Drive) (b : Block) :
    (∃ d' b', Returns (fun fuel => readDirectory name fuel d b) (d', b') ∧
      ∃ lbas, d'.reads = d.reads ++ lbas ∧ lbas.Nodup) ↔ Ends name d b := by
  constructor
  · rintro ⟨d', b', hret, -⟩
    obtain ⟨fuel, hfuel⟩ := hret.exists
    exact ends_of_readDirectory hfuel
  · rintro (hpasses | ⟨hbeyond, hb, hpasses⟩)
    · exact readDirectory_passes hpasses
    · obtain ⟨d', b', hret, hreads⟩ := readDirectory_passes hpasses
      exact ⟨d', b', (readDirectory_beyond hb hbeyond).2 hret, hreads⟩

/-- The last block is the first one or one of the disk. -/
theorem Chain.last_eq {disk : ℕ → Block} {b l : Block} {bs : List Block} (h : Chain disk b bs l) :
    l = b ∨ ∃ lba, l = disk lba := by
  induction h with
  | last => exact .inl rfl
  | link _ _ _ ih =>
    rcases ih with rfl | hl
    · exact .inr ⟨_, rfl⟩
    · exact .inr hl

/-- A block that links to sector 1. -/
def linkedBlock : Block := fun i => if i = 510 then 1 else 0

/-- A sector that links to itself is read for ever. -/
theorem readDirectory_loops :
    ¬ ∃ d' b', Returns (fun fuel => readDirectory (fun _ => 0x41) fuel ⟨fun _ => linkedBlock, linkedBlock, []⟩
        linkedBlock) (d', b') ∧ ∃ lbas, d'.reads = [] ++ lbas ∧ lbas.Nodup := by
  rintro ⟨d', b', hret, -⟩
  obtain ⟨fuel, hfuel⟩ := hret.exists
  rcases ends_of_readDirectory hfuel with ⟨bs, l, hchain, -⟩ | ⟨hbeyond, -, -⟩
  · have hl : l = linkedBlock := by
      rcases hchain.last_eq with hl | ⟨_, hl⟩
      · exact hl
      · exact hl
    exact absurd (hl ▸ hchain.last_next) (by decide)
  · exact absurd hbeyond (by decide)

end RedFox32.Old.FileSystem
