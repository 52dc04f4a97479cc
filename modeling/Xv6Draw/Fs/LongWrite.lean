import Xv6Draw.Fs.SharedWrite

/-!
# Long writes

`filewrite` cuts a long write into sections and commits each of them. The first section that does
not fit into the file ends the loop, and the sections before it stay: the call then returns -1
although a part of its bytes is in the file and the offset has moved.
-/

namespace Xv6Draw.Fs

open Hoare List

/-- The bytes that a write of `n` bytes stores at an offset of a file: all of them, or as many whole
sections as fit. -/
def stored (size off n : ℕ) : ℕ :=
  if size < off then 0
  else if off + n ≤ maxfile * bsize then n
  else maxChunk * ((maxfile * bsize - off) / maxChunk)

variable {y y' : Sys} {f : Fin nfile} {i n size off : ℕ} {c : List (BitVec 8)}

/-- The first section is stored, and then what is stored behind it. -/
theorem stored_add {size' : ℕ} (hoff : off ≤ size) (hfits : off + min n maxChunk ≤ maxfile * bsize)
    (hsize : off + min n maxChunk ≤ size') : stored size off n =
      min n maxChunk + stored size' (off + min n maxChunk) (n - min n maxChunk) := by
  unfold stored maxChunk Log.logSize maxfile bsize at *
  split_ifs <;> omega

/-- Nothing is stored when the first section does not fit. -/
theorem stored_eq_zero
    (hout : n = 0 ∨ ¬ (off ≤ size ∧ off + min n maxChunk ≤ maxfile * bsize)) : stored size off n = 0 := by
  unfold stored maxChunk Log.logSize maxfile bsize at *
  split_ifs <;> omega

theorem stored_partial_iff : stored size off n ≠ n ∧ stored size off n ≠ 0 ↔
    off ≤ size ∧ off + maxChunk ≤ maxfile * bsize ∧ maxfile * bsize < off + n := by
  unfold stored maxChunk Log.logSize maxfile bsize
  split_ifs <;> omega

/-- What a write leaves that has stored `m` bytes. -/
structure Stored (f : Fin nfile) (i : ℕ) (c : List (BitVec 8)) (src : ℕ → BitVec 8) (m : ℕ) (y y' : Sys) :
    Prop where
  off : (y'.ftable f).off = (y.ftable f).off + m
  file : FileOn y' f i (splice c (y.ftable f).off ((range m).map src))

/-- The loop of `filewrite` stores sections as long as they fit. -/
theorem FileOn.wp_writeChunks (h : FileOn y f i c) (addr : ℕ → BitVec 8) (hn : n < 2 ^ 31)
    {rounds j : ℕ} (hj : j ≤ n) (hrounds : n ≤ j + rounds) :
    wp (writeChunks f (y.ftable f).ip addr n rounds j) (fun _ => True) (fun r y' =>
      ∃ m, m = stored c.length (y.ftable f).off (n - j) ∧ r = j + m ∧
        Stored f i c (fun l => addr (j + l)) m y y') y := by
  induction rounds generalizing y c j with
  | zero =>
    obtain rfl : j = n := by omega
    refine wp_pure ⟨0, (stored_eq_zero (by omega)).symm, rfl, rfl, ?_⟩
    rw [range_zero, map_nil, splice_nil]
    exact h
  | succ rounds ih =>
    unfold writeChunks
    refine wp_ite (fun hlt => ?_) fun hge => wp_pure ⟨0, (stored_eq_zero (by omega)).symm, rfl, rfl, ?_⟩
    · have hn1 : min (n - j) maxChunk < 2 ^ 31 := by omega
      refine wp_seq (h.wp_writeChunk (fun l => addr (j + l)) hn1) ?_
      rintro r y₁ ⟨hip, hfits, hrefused⟩
      rw [length_map, length_range] at hfits hrefused
      by_cases hin : (y.ftable f).off ≤ c.length ∧
          (y.ftable f).off + min (n - j) maxChunk ≤ maxfile * bsize
      · obtain ⟨rfl, hoff, hfile⟩ := hfits hin
        -- the other rounds start behind the section
        rw [if_neg (by omega), if_neg (by simp), ← hip]
        have hpos : 0 < min (n - j) maxChunk := by
          unfold maxChunk Log.logSize
          omega
        refine wp_mono (ih hfile (by omega) (by omega)) ?_
        rintro _ y₂ ⟨m, hm, rfl, hoff₂, hfile₂⟩
        have hsize : (y.ftable f).off + min (n - j) maxChunk ≤
            (splice c (y.ftable f).off ((range (min (n - j) maxChunk)).map
              fun l => addr (j + l))).length := by
          simp only [splice, length_append, length_take, length_map, length_range, length_drop]
          omega
        refine ⟨min (n - j) maxChunk + m, ?_, by omega, by omega, ?_⟩
        · rw [stored_add hin.1 hin.2 hsize, hm, hoff, Nat.sub_sub]
        · have hsplice := splice_splice (w := (range (min (n - j) maxChunk)).map fun l => addr (j + l))
            (b := (range m).map fun l => addr (j + min (n - j) maxChunk + l)) hin.1
          rw [length_map, length_range] at hsplice
          rw [hoff, hsplice] at hfile₂
          rw [range_add, map_append, map_map]
          simp only [Nat.add_assoc] at hfile₂
          exact hfile₂
      · obtain ⟨rfl, hoff, hfile⟩ := hrefused hin
        rw [if_pos (by decide)]
        refine wp_pure ⟨0, (stored_eq_zero (.inr hin)).symm, rfl, hoff, ?_⟩
        rw [range_zero, map_nil, splice_nil]
        exact hfile
    · rw [range_zero, map_nil, splice_nil]
      exact h

/-- **Long writes.** A write to a regular file that returns has stored all its bytes at the offset
and returns their number, or has stored the whole sections that fit and returns -1. The offset is
behind what was stored. -/
theorem filewrite_stores_sections (h : FileOn y f i c) (hwritable : (y.ftable f).writable = true)
    (htype : (y.ftable f).type = .inode)
    (hregular : (y.fs.icache (y.ftable f).ip).d.type = tFile) {addr : ℕ → BitVec 8} (hn : n < 2 ^ 31)
    {r : ℤ} (hrun : filewrite f addr n y = .ok (r, y')) :
    let off := (y.ftable f).off
    let m := stored c.length off n
    r = (if m = n then (n : ℤ) else -1) ∧ (y'.ftable f).off = off + m ∧
      contents y'.fs i = some (splice c off ((range m).map addr)) ∧
      (r = -1 ∧ m ≠ 0 ↔ off ≤ c.length ∧ off + maxChunk ≤ maxfile * bsize ∧ maxfile * bsize < off + n) := by
  have hloop := h.wp_writeChunks addr hn (Nat.zero_le n) (Nat.le_of_eq (Nat.zero_add n).symm)
  rw [filewrite_eq_writeInode hwritable htype (by rw [hregular]; decide)] at hrun
  have hwrite : wp (writeInode f (y.ftable f).ip addr n) (fun _ => True) (fun r y' =>
      r = (if stored c.length (y.ftable f).off n = n then (n : ℤ) else -1) ∧
        Stored f i c addr (stored c.length (y.ftable f).off n) y y') y := by
    refine wp_seq hloop ?_
    rintro r y₁ ⟨m, rfl, rfl, hstored⟩
    simp only [Nat.zero_add, Nat.sub_zero] at hstored ⊢
    exact wp_pure ⟨rfl, hstored⟩
  obtain ⟨hr, hoff, hfile⟩ := wp_ok hwrite hrun
  refine ⟨hr, hoff, hfile.contents, ?_⟩
  have hneg : r = -1 ↔ stored c.length (y.ftable f).off n ≠ n := by
    rw [hr]
    split_ifs with hall
    · exact iff_of_false nofun (not_not.mpr hall)
    · exact iff_of_true rfl hall
  rw [hneg]
  exact stored_partial_iff

/-- Three bytes are stored in a new file. -/
theorem three_bytes_stored : ∃ y', filewrite 0 (fun j => BitVec.ofNat 8 (j + 65)) 3 newFileSys =
    .ok (3, y') ∧ contents y'.fs 2 = some [65, 66, 67] := by
  obtain ⟨r, y', hrun⟩ : ∃ r y', filewrite 0 (fun j => BitVec.ofNat 8 (j + 65)) 3 newFileSys = .ok (r, y') :=
    exists_ok_of_isSome (by decide +kernel)
  obtain ⟨rfl, -, hc, -⟩ := filewrite_stores_sections newFileSys_fileOn rfl rfl rfl (by decide) hrun
  exact ⟨y', hrun, hc⟩

/-- A file of 127 blocks. Its blocks lie behind the metadata, and the indirect block behind them. -/
def longFile : Dinode where
  type := tFile
  major := 0
  minor := 0
  nlink := 1
  size := 127 * 512
  addrs := fun j => if j.val < ndirect then BitVec.ofNat 32 (nmeta + j) else BitVec.ofNat 32 (nmeta + 127)

/-- A disk with the long file as its second inode. -/
def longFileDisk : ℕ → Block := fun b j =>
  if b = bmapstart then if j < 23 then 0xff else if j = 23 then 0x07 else 0
  else if b = iblock 2 then writeDinode (fun _ => 0) (2 % ipb) longFile j
  else if b = nmeta + 127 then if j < 4 * 115 ∧ j % 4 = 0 then BitVec.ofNat 8 (nmeta + 12 + j / 4) else 0
  else 0

/-- A process has the long file open for writing, with the offset at its end. -/
def longFileSys : Sys where
  fs := ⟨longFileDisk, [], fun k => ⟨2, if k = 0 then 1 else 0, false, true, longFile⟩⟩
  ftable := fun _ => ⟨.inode, 1, false, true, 0, 127 * 512⟩
  procs := fun _ => ⟨fun _ => some 0, some 0⟩
  sections := []

/-- A write of one byte more than fits returns -1, but the file has got 13 blocks and the offset
has moved. -/
theorem refused_write_grows_file :
    (filewrite 0 (fun _ => 7) 6657 longFileSys).toOption.map (fun r =>
      (r.1, (r.2.ftable 0).off, (r.2.fs.icache 0).d.size.toNat)) = some (-1, 71680, 71680) ∧
    (longFileSys.ftable 0).off = 65024 ∧ (longFileSys.fs.icache 0).d.size.toNat = 65024 := by
  decide +kernel

end Xv6Draw.Fs
