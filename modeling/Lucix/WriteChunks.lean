import Lucix.UserCopy

/-! The byte strings that `sys_write` hands to a file. The loop copies 256 bytes at a
time into a buffer of that size, does not look at what the copy returns, and the copy
stores one byte more than it is asked for; so a first chunk with a mapped byte behind it
runs over the buffer, and a byte in no area is passed on as zero. -/
namespace Lucix.Sys
open Mm

/-- A `write` operation with a record of the byte strings that it was given. -/
def recorded {σ : Type} (write : σ → List UInt8 → Int × σ) (s : σ × List (List UInt8)) (bytes : List UInt8) :
    Int × σ × List (List UInt8) := ((write s.1 bytes).1, (write s.1 bytes).2, s.2 ++ [bytes])

def FileOps.recording {σ : Type} (ops : FileOps σ) : FileOps (σ × List (List UInt8)) where
  write := fun file => (ops.write file).map recorded

/-- What a call that writes `count` bytes should do: all of them are passed on and counted, or one is
in no area and the call fails after bytes of the buffer only. -/
structure WritesWhole {σ : Type} (user : UserSpace) (src count : Nat)
    (r : Except Fault (Int × σ × List (List UInt8))) : Prop where
  whole : (∀ i < count, user.Mapped (wrap64 (src + i))) →
    ∃ s log, r = .ok ((count : Int), s, log) ∧ log.flatten = user.buffer src count
  fails : (∃ i < count, ¬ user.Mapped (wrap64 (src + i))) →
    ∃ ret s log, r = .ok (ret, s, log) ∧ ret < 0 ∧
      ∃ k ≤ count, (∀ i < k, user.Mapped (wrap64 (src + i))) ∧ log.flatten = user.buffer src k

section chunks
variable {σ : Type} {user : UserSpace} {write : σ → List UInt8 → Int × σ} {src count : Nat} {s : σ}

theorem copyFromUser_one_more (hlt : count + 1 < 2 ^ 63)
    (hmapped : ∀ i < count + 1, user.Mapped (wrap64 (src + i))) :
    (copyFromUser user.areas user.bytes src count).2 = user.buffer src (count + 1) := by
  have hadvance := copyFromUser_advance 0 hmapped hlt
  rw [Nat.zero_add] at hadvance
  rw [← (copyFromUserRun_eq hlt).2, copyFromUserRun, hadvance]
  simp [CopyRun.behind, copyRun, CopyRun.done]

theorem copyFromUser_up_to {k : Nat} (hlt : count + 1 < 2 ^ 63) (hk : k ≤ count)
    (hmapped : ∀ i < k, user.Mapped (wrap64 (src + i))) (hnot : ¬ user.Mapped (wrap64 (src + k))) :
    (copyFromUser user.areas user.bytes src count).2 = user.buffer src k := by
  rw [← (copyFromUserRun_eq hlt).2, copyFromUser_stops hk (by omega) hmapped hnot]

theorem writeLoop_chunk {fuel i n : Nat} {total : Int} {stored : List UInt8} (hlt : (i : Int) < count)
    (hn : (if (count : Int) - i > 256 then 256 else ((count : Int) - i).toNat) = n)
    (hcopy : (copyFromUser user.areas user.bytes (wrap64 (src + i)) n).2 = stored)
    (hfits : stored.length ≤ 256) (hint : i + 256 < 2 ^ 31) :
    writeLoop user write src count (fuel + 1) i total s =
      let buff := stored ++ List.replicate (256 - stored.length) 0
      writeLoop user write src count fuel (i + 256) (total + (write s (buff.take n)).1)
        (write s (buff.take n)).2 := by
  rw [writeLoop, if_pos hlt]
  simp only [hn, hcopy]
  rw [if_neg (Nat.not_lt.mpr hfits), if_neg (Nat.not_le.mpr hint)]

theorem writeLoop_overrun {fuel i n : Nat} {total : Int} (hlt : (i : Int) < count)
    (hn : (if (count : Int) - i > 256 then 256 else ((count : Int) - i).toNat) = n)
    (hover : 256 < (copyFromUser user.areas user.bytes (wrap64 (src + i)) n).2.length) :
    writeLoop user write src count (fuel + 1) i total s = .error .buffer := by
  rw [writeLoop, if_pos hlt]
  simp only [hn]
  rw [if_pos hover]

/-- A file that counts what it is given makes no total negative. -/
theorem writeLoop_nonneg (hwrite : ∀ s bytes, 0 ≤ (write s bytes).1) {fuel i : Nat} {total ret : Int} {s' : σ}
    (htotal : 0 ≤ total) (h : writeLoop user write src count fuel i total s = .ok (ret, s')) : 0 ≤ ret := by
  induction fuel generalizing i total s with
  | zero =>
      obtain ⟨rfl, -⟩ := Prod.mk.inj (Except.ok.inj h)
      exact htotal
  | succ fuel ih =>
      rw [writeLoop] at h
      split at h
      · dsimp only at h
        generalize copyFromUser user.areas user.bytes _ _ = copied at h
        split at h
        · cases h
        · split at h
          · cases h
          · exact ih (Int.add_nonneg htotal (hwrite _ _)) h
      · obtain ⟨rfl, -⟩ := Prod.mk.inj (Except.ok.inj h)
        exact htotal

theorem take_buffer (user : UserSpace) (src : Nat) {k n : Nat} (h : n ≤ k) (rest : List UInt8) :
    (user.buffer src k ++ rest).take n = user.buffer src n := by
  rw [List.take_append_of_le_length (by simpa using h), UserSpace.buffer, ← List.map_take, List.take_range,
    Nat.min_eq_left h]
  rfl

theorem wrap64_base (src i : Nat) : wrap64 (wrap64 (src + 0) + i) = wrap64 (src + i) := by
  simp only [wrap64]
  omega

theorem buffer_base (user : UserSpace) (src k : Nat) : user.buffer (wrap64 (src + 0)) k = user.buffer src k := by
  simp only [UserSpace.buffer, wrap64_base]

theorem first_copy {n : Nat} (hle : n ≤ 256) (hmapped : ∀ i < n, user.Mapped (wrap64 (src + i))) :
    (copyFromUser user.areas user.bytes (wrap64 (src + 0)) n).2 =
      user.buffer src (if user.Mapped (wrap64 (src + n)) then n + 1 else n) := by
  rw [← buffer_base]
  split_ifs with hnext
  · apply copyFromUser_one_more (by omega)
    intro i hi
    rw [wrap64_base]
    rcases Nat.lt_succ_iff_lt_or_eq.mp hi with hlt | rfl
    · exact hmapped i hlt
    · exact hnext
  · apply copyFromUser_up_to (by omega) (Nat.le_refl n)
    · intro i hi
      rw [wrap64_base]
      exact hmapped i hi
    · rwa [wrap64_base]

/-- A single chunk of mapped bytes is passed on as it is, if the copy of it fits. -/
theorem writeLoop_single (hpos : 0 < count) (hmapped : ∀ i < count, user.Mapped (wrap64 (src + i)))
    (hfits : count < 256 ∨ count = 256 ∧ ¬ user.Mapped (wrap64 (src + 256))) :
    writeLoop user write src count 1 0 0 s =
      .ok ((write s (user.buffer src count)).1, (write s (user.buffer src count)).2) := by
  have hle : count ≤ 256 := by omega
  have hcopy := first_copy hle hmapped
  have hlength : (if user.Mapped (wrap64 (src + count)) then count + 1 else count) ≤ 256 := by
    rcases hfits with hlt | ⟨rfl, hnot⟩
    · split_ifs <;> omega
    · rw [if_neg hnot]
  have hn : (if (count : Int) - (0 : Nat) > 256 then 256 else ((count : Int) - (0 : Nat)).toNat) = count := by
    split_ifs <;> omega
  rw [writeLoop_chunk (by omega) hn hcopy (by simpa using hlength) (by decide), writeLoop]
  have hwhole : count ≤ if user.Mapped (wrap64 (src + count)) then count + 1 else count := by
    split_ifs <;> omega
  simp only [take_buffer user src hwhole, Int.zero_add]

theorem writeLoop_first_overrun {fuel : Nat} {total : Int} (hge : 256 ≤ count)
    (hmapped : ∀ i < 257, user.Mapped (wrap64 (src + i))) :
    writeLoop user write src count (fuel + 1) 0 total s = .error .buffer := by
  have hcopy := first_copy (Nat.le_refl 256) fun i hi => hmapped i (by omega)
  rw [if_pos (hmapped 256 (by decide))] at hcopy
  have hn : (if (count : Int) - (0 : Nat) > 256 then 256 else ((count : Int) - (0 : Nat)).toNat) = 256 := by
    split_ifs <;> omega
  apply writeLoop_overrun (by omega) hn
  rw [hcopy, length_buffer]
  decide

theorem sysWrite_open {ops : FileOps σ} {table : FdTable} {fd file : Nat} (hopen : table.fd[fd]? = some (some file))
    (hops : ops.write file = some write) :
    sysWrite ops user table fd src count s = writeLoop user write src count ((count + 255) / 256) 0 0 s := by
  have hlt : fd < table.fd.length := (List.getElem?_eq_some_iff.mp hopen).1
  have hbound : ¬ (fd : Int) ≥ table.tableSize := by
    rw [FdTable.tableSize]
    omega
  have hread : arrayRead table.fd (fd : Int) = some (some file) := hopen
  rw [sysWrite, if_neg hbound, hread]
  simp only [hops, Int.toNat_natCast]

end chunks

/-- A write is whole exactly when all its bytes are mapped and are fewer than 256, or 256 and the byte
behind them is in no area. -/
theorem sysWrite_whole_iff {σ : Type} (ops : FileOps σ) (user : UserSpace) (table : FdTable) (fd file : Nat)
    (write : σ → List UInt8 → Int × σ) (src count : Nat) (s : σ) (hopen : table.fd[fd]? = some (some file))
    (hops : ops.write file = some write) (hconsumes : ∀ s bytes, (write s bytes).1 = bytes.length) :
    WritesWhole user src count (sysWrite ops.recording user table fd src count (s, [])) ↔
      (∀ i < count, user.Mapped (wrap64 (src + i))) ∧
        (count < 256 ∨ count = 256 ∧ ¬ user.Mapped (wrap64 (src + 256))) := by
  have hrecorded : ops.recording.write file = some (recorded write) := by
    simp [FileOps.recording, hops]
  rw [sysWrite_open hopen hrecorded]
  constructor
  · intro h
    have hmapped : ∀ i < count, user.Mapped (wrap64 (src + i)) := by
      by_contra hnone
      push Not at hnone
      obtain ⟨ret, s', log, hok, hneg, -⟩ := h.fails hnone
      have hnonneg := writeLoop_nonneg (fun s bytes => ?_) (Int.le_refl 0) hok
      · omega
      · rw [recorded, hconsumes]
        exact Int.natCast_nonneg _
    refine ⟨hmapped, ?_⟩
    by_contra hlong
    obtain ⟨fuel, hfuel⟩ : ∃ fuel, (count + 255) / 256 = fuel + 1 := ⟨(count + 255) / 256 - 1, by omega⟩
    obtain ⟨s', log, hok, -⟩ := h.whole hmapped
    have hover : ∀ i < 257, user.Mapped (wrap64 (src + i)) := by
      intro i hi
      by_cases hlt : i < count
      · exact hmapped i hlt
      · obtain rfl : i = 256 := by omega
        by_contra hnot
        exact hlong (.inr ⟨by omega, hnot⟩)
    rw [hfuel, writeLoop_first_overrun (by omega) hover] at hok
    cases hok
  · rintro ⟨hmapped, hfits⟩
    refine ⟨fun _ => ?_, ?_⟩
    · rcases Nat.eq_zero_or_pos count with rfl | hpos
      · exact ⟨s, [], rfl, rfl⟩
      · have hfuel : (count + 255) / 256 = 1 := by omega
        rw [hfuel, writeLoop_single hpos hmapped hfits]
        refine ⟨(write s (user.buffer src count)).2, [user.buffer src count], ?_, by simp⟩
        simp only [recorded, hconsumes, length_buffer, List.nil_append]
    · rintro ⟨i, hi, hnot⟩
      exact absurd (hmapped i hi) hnot

/-- A file that takes all it is given. -/
def sinkOps : FileOps Unit := ⟨fun _ => some fun _ bytes => (bytes.length, ())⟩

/-- A table in which the descriptor 0 is open. -/
def sinkTable : FdTable := ⟨[some 0x1000]⟩

theorem one_byte_written_whole :
    sinkTable.fd[0]? = some (some 0x1000) ∧ (∀ i < 1, onePageUser.Mapped (wrap64 (0x400000 + i))) ∧
    WritesWhole onePageUser 0x400000 1
      (sysWrite sinkOps.recording onePageUser sinkTable (0 : Nat) 0x400000 (1 : Nat) ((), [])) := by
  have hmapped : ∀ i < 1, onePageUser.Mapped (wrap64 (0x400000 + i)) := by decide +kernel
  refine ⟨rfl, hmapped, ?_⟩
  exact (sysWrite_whole_iff sinkOps onePageUser sinkTable 0 0x1000 _ 0x400000 1 () rfl rfl
    fun _ _ => rfl).mpr ⟨hmapped, .inl (by decide)⟩

/-- A byte in no area is written as zero, and counted. -/
theorem unmapped_byte_written :
    sysWrite sinkOps.recording ⟨[], fun _ => 7⟩ sinkTable (0 : Nat) 0x400000 (1 : Nat) ((), []) =
      .ok (1, (), [[0]]) ∧
    ¬ ∀ (ops : FileOps Unit) (user : UserSpace) (table : FdTable) (fd file : Nat)
        (write : Unit → List UInt8 → Int × Unit) (src count : Nat),
      table.fd[fd]? = some (some file) → ops.write file = some write →
      (∀ s bytes, (write s bytes).1 = bytes.length) →
      WritesWhole user src count (sysWrite ops.recording user table fd src count ((), [])) := by
  have hrun : sysWrite sinkOps.recording ⟨[], fun _ => 7⟩ sinkTable (0 : Nat) 0x400000 (1 : Nat) ((), []) =
      .ok (1, (), [[0]]) := rfl
  refine ⟨hrun, fun hall => ?_⟩
  have hmeets := hall sinkOps ⟨[], fun _ => 7⟩ sinkTable 0 0x1000 _ 0x400000 1 rfl rfl fun _ _ => rfl
  obtain ⟨ret, s, log, hok, hneg, -⟩ := hmeets.fails ⟨0, by decide, by simp [UserSpace.Mapped, findVmaForAddress]⟩
  rw [hrun] at hok
  obtain ⟨rfl, -⟩ := Prod.mk.inj (Except.ok.inj hok)
  omega

end Lucix.Sys
