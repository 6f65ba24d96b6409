import Lucix.Execution

/-!
# The table of interrupt controllers, `arch/x86_64/acpi/madt.c`

The table is a function from offsets to bytes; what lies behind its end is part of
it. `curr_index` is a 32-bit offset and `curr_ptr` a pointer, and the loop adds the
size of a struct to each. What is printed is left out, the bytes read for it are not.
-/
namespace Lucix.Acpi
open Execution

/-- The size of `struct acpi_madt`. -/
def madtSize : Nat := 44

/-- The field `header.length`. -/
def headerLength (madt : Nat → UInt8) : Nat :=
  (madt 4).toNat + (madt 5).toNat * 2 ^ 8 + (madt 6).toNat * 2 ^ 16 + (madt 7).toNat * 2 ^ 24

def entryType (madt : Nat → UInt8) (entry : Nat) : UInt8 := madt entry

def recordLength (madt : Nat → UInt8) (entry : Nat) : Nat := (madt (entry + 1)).toNat

/-- The size of the struct that each case of the switch casts to; other types have no case. -/
def structSize (type : UInt8) : Option Nat :=
  match type.toNat with
  | 0 => some 8
  | 1 => some 12
  | 2 => some 10
  | 3 => some 10
  | 4 => some 6
  | 5 => some 12
  | _ => none

/-- The bytes that a round reads: the type, and for a source override its four fields. -/
def entryReads (madt : Nat → UInt8) (entry : Nat) : List Nat :=
  if (entryType madt entry).toNat = 2 then entry :: (List.range 8).map (entry + 2 + ·) else [entry]

/-- The two variables of the loop, the entries that it has examined and the bytes that it has read. -/
structure Scan where
  currIndex : Nat
  currPtr : Nat
  entries : List Nat
  reads : List Nat
  deriving DecidableEq, Repr

def scanMore (madt : Nat → UInt8) (s : Scan) : Bool := decide (s.currIndex < headerLength madt)

/-- One round of the loop. -/
def scanEntry (madt : Nat → UInt8) (s : Scan) : Option Scan :=
  let size := (structSize (entryType madt s.currPtr)).getD 0
  some { currIndex := (s.currIndex + size) % 2 ^ 32
         currPtr := s.currPtr + size
         entries := s.entries ++ [s.currPtr]
         reads := s.reads ++ entryReads madt s.currPtr }

/-- Before the loop the header's length and the two fields behind the header are read. -/
def scanStart : Scan := ⟨madtSize, madtSize, [], [4, 5, 6, 7] ++ (List.range 8).map (36 + ·)⟩

/-- At most `fuel` rounds of `parse_madt`. -/
def parseMadt (madt : Nat → UInt8) (fuel : Nat) : Outcome Scan :=
  whileFuel (scanMore madt) (scanEntry madt) fuel scanStart

/-! ### Tables in step -/

/-- The records from `entry` on end at the end of the table. -/
inductive Tiles (madt : Nat → UInt8) : Nat → List Nat → Prop
  | last : Tiles madt (headerLength madt) []
  | record {entry : Nat} {rest : List Nat} : 0 < recordLength madt entry →
      Tiles madt (entry + recordLength madt entry) rest → Tiles madt entry (entry :: rest)

/-- The parser comes to its end, having examined the given entries and read nothing behind the table. -/
def ParsesInStep (madt : Nat → UInt8) (entries : List Nat) : Prop :=
  ∃ fuel s, parseMadt madt fuel = .done s ∧ s.entries = entries ∧ ∀ i ∈ s.reads, i < headerLength madt

/-- Every record has a known type and the size of its struct. The last one may be shorter than
its struct as long as no field is read and the index does not wrap. -/
def Known (madt : Nat → UInt8) : List Nat → Prop
  | [] => True
  | [entry] => ∃ size, structSize (entryType madt entry) = some size ∧ recordLength madt entry ≤ size ∧
      entry + size < 2 ^ 32 ∧ ((entryType madt entry).toNat = 2 → recordLength madt entry = size)
  | entry :: next :: rest =>
      structSize (entryType madt entry) = some (recordLength madt entry) ∧ Known madt (next :: rest)

section scan
variable {madt : Nat → UInt8}

theorem headerLength_lt (madt : Nat → UInt8) : headerLength madt < 2 ^ 32 := by
  have h4 := (madt 4).toNat_lt
  have h5 := (madt 5).toNat_lt
  have h6 := (madt 6).toNat_lt
  have h7 := (madt 7).toNat_lt
  unfold headerLength
  omega

theorem structSize_bounds {type : UInt8} {size : Nat} (h : structSize type = some size) :
    0 < size ∧ size ≤ 12 ∧ (type.toNat = 2 → size = 10) := by
  unfold structSize at h
  split at h
  all_goals simp_all
  all_goals omega

theorem Tiles.le {entry : Nat} {bs : List Nat} (h : Tiles madt entry bs) : entry ≤ headerLength madt := by
  induction h with
  | last => exact Nat.le_refl _
  | record _ _ ih => omega

theorem Tiles.inv {entry : Nat} {bs : List Nat} (h : Tiles madt entry bs) :
    (bs = [] ∧ entry = headerLength madt) ∨ ∃ rest, bs = entry :: rest := by
  cases h with
  | last => exact .inl ⟨rfl, rfl⟩
  | record _ _ => exact .inr ⟨_, rfl⟩

theorem scan_grows {fuel : Nat} {s t : Scan} (h : whileFuel (scanMore madt) (scanEntry madt) fuel s = .done t) :
    s.entries <+: t.entries ∧ s.reads ⊆ t.reads := by
  refine whileFuel_preserves (fun u => s.entries <+: u.entries ∧ s.reads ⊆ u.reads) ?_
    ⟨List.prefix_rfl, List.Subset.refl _⟩ h
  intro u v hu _ huv
  obtain rfl := Option.some.inj huv
  exact ⟨hu.1.trans (List.prefix_append _ _), List.subset_append_of_subset_left _ hu.2⟩

theorem scan_end {fuel : Nat} {s : Scan} (h : scanMore madt s = false) :
    whileFuel (scanMore madt) (scanEntry madt) fuel s = .done s := by
  cases fuel with
  | zero => simp [whileFuel, h]
  | succ fuel => simp [whileFuel, h]

/-- The state after a round. -/
def Scan.next (madt : Nat → UInt8) (s : Scan) (size : Nat) : Scan :=
  ⟨(s.currIndex + size) % 2 ^ 32, s.currPtr + size, s.entries ++ [s.currPtr], s.reads ++ entryReads madt s.currPtr⟩

/-- The loop ends in a state with the property. -/
def Ends (madt : Nat → UInt8) (s : Scan) (P : Scan → Prop) : Prop :=
  ∃ fuel t, whileFuel (scanMore madt) (scanEntry madt) fuel s = .done t ∧ P t

theorem ends_next_iff {s : Scan} {size : Nat} {P : Scan → Prop} (hmore : scanMore madt s = true)
    (hsize : structSize (entryType madt s.currPtr) = some size) :
    Ends madt s P ↔ Ends madt (s.next madt size) P := by
  have hround : ∀ fuel, whileFuel (scanMore madt) (scanEntry madt) (fuel + 1) s =
      whileFuel (scanMore madt) (scanEntry madt) fuel (s.next madt size) := by
    intro fuel
    simp only [whileFuel, hmore, if_true, scanEntry, hsize, Option.getD_some]
    rfl
  constructor
  · rintro ⟨fuel, t, hdone, hP⟩
    cases fuel with
    | zero => simp [whileFuel, hmore] at hdone
    | succ fuel => exact ⟨fuel, t, hround fuel ▸ hdone, hP⟩
  · rintro ⟨fuel, t, hdone, hP⟩
    exact ⟨fuel + 1, t, (hround fuel).trans hdone, hP⟩

theorem ends_of_done {s : Scan} {P : Scan → Prop} (hend : scanMore madt s = false) : Ends madt s P ↔ P s := by
  constructor
  · rintro ⟨fuel, t, hdone, hP⟩
    rw [scan_end hend] at hdone
    exact Outcome.done.inj hdone ▸ hP
  · exact fun hP => ⟨0, s, scan_end hend, hP⟩

/-- A type without a case keeps the loop where it is. -/
theorem scan_stuck {s t : Scan} (hmore : scanMore madt s = true) (hlt : s.currIndex < 2 ^ 32)
    (hunknown : structSize (entryType madt s.currPtr) = none) (fuel : Nat) :
    whileFuel (scanMore madt) (scanEntry madt) fuel s ≠ .done t := by
  refine whileFuel_not_done (fun u => u.currIndex = s.currIndex ∧ u.currPtr = s.currPtr) ?_ ?_ fuel ⟨rfl, rfl⟩ t
  · intro u hu
    unfold scanMore
    rw [hu.1]
    exact hmore
  · intro u v hu huv
    obtain rfl := Option.some.inj huv
    simp only [hu.1, hu.2, hunknown, Option.getD_none, Nat.add_zero, and_true]
    exact Nat.mod_eq_of_lt hlt

theorem Ends.examines {s : Scan} {P : Scan → Prop} (h : Ends madt s P) (hmore : scanMore madt s = true)
    (hlt : s.currIndex < 2 ^ 32) : ∃ t, P t ∧ s.entries ++ [s.currPtr] <+: t.entries := by
  cases hsize : structSize (entryType madt s.currPtr) with
  | none =>
      obtain ⟨fuel, t, hdone, -⟩ := h
      exact absurd hdone (scan_stuck hmore hlt hsize fuel)
  | some size =>
      obtain ⟨fuel, t, hdone, hP⟩ := (ends_next_iff hmore hsize).mp h
      exact ⟨t, hP, (scan_grows hdone).1⟩

/-- The entries are those of the rest, and nothing behind the table has been read. -/
def Scan.Finished (madt : Nat → UInt8) (entries : List Nat) (t : Scan) : Prop :=
  t.entries = entries ∧ ∀ i ∈ t.reads, i < headerLength madt

theorem entryReads_inside_iff {entry : Nat} : (∀ i ∈ entryReads madt entry, i < headerLength madt) ↔
    entry < headerLength madt ∧ ((entryType madt entry).toNat = 2 → entry + 10 ≤ headerLength madt) := by
  unfold entryReads
  split_ifs with htype
  · simp only [List.forall_mem_cons, List.forall_mem_map, List.mem_range, htype, true_implies]
    refine and_congr_right fun _ => ⟨fun h => ?_, fun h j hj => by omega⟩
    have hlast := h 7 (by decide)
    omega
  · simp [htype]

theorem next_reads_iff {s : Scan} {entry size : Nat} (hptr : s.currPtr = entry) :
    (∀ i ∈ (s.next madt size).reads, i < headerLength madt) ↔
      (∀ i ∈ s.reads, i < headerLength madt) ∧
        entry < headerLength madt ∧ ((entryType madt entry).toNat = 2 → entry + 10 ≤ headerLength madt) := by
  rw [Scan.next, hptr, List.forall_mem_append, entryReads_inside_iff]

/-- Where the size is not the record's, the next entry is not the next record. -/
theorem ends_out_of_step {s : Scan} {entry size : Nat} {rest : List Nat} (hptr : s.currPtr = entry)
    (hstep : size ≠ recordLength madt entry) :
    ¬ Ends madt (s.next madt size)
      (Scan.Finished madt (s.entries ++ entry :: (entry + recordLength madt entry) :: rest)) := by
  intro hends
  have hentries : (s.next madt size).entries = s.entries ++ [entry] := by rw [Scan.next, hptr]
  have hptr' : (s.next madt size).currPtr = entry + size := by rw [Scan.next, hptr]
  have hlt : (s.next madt size).currIndex < 2 ^ 32 := Nat.mod_lt _ (by decide)
  by_cases hmore : scanMore madt (s.next madt size) = true
  · obtain ⟨t, ⟨hfinished, -⟩, hprefix⟩ := hends.examines hmore hlt
    rw [hfinished, hentries, hptr', List.append_assoc, List.prefix_append_right_inj] at hprefix
    simp [hstep] at hprefix
  · rw [Bool.not_eq_true] at hmore
    obtain ⟨hfinished, -⟩ := (ends_of_done hmore).mp hends
    rw [hentries] at hfinished
    simp at hfinished

theorem last_reads_iff {s : Scan} {entry size : Nat} (hptr : s.currPtr = entry) (hpos : 0 < recordLength madt entry)
    (hend : entry + recordLength madt entry = headerLength madt) :
    (∀ i ∈ (s.next madt size).reads, i < headerLength madt) ↔
      (∀ i ∈ s.reads, i < headerLength madt) ∧
        ((entryType madt entry).toNat = 2 → 10 ≤ recordLength madt entry) := by
  rw [next_reads_iff hptr]
  refine and_congr_right fun _ => ⟨fun h htype => ?_, fun h => ⟨by omega, fun htype => ?_⟩⟩
  · have := h.2 htype
    omega
  · have := h htype
    omega

theorem known_last_iff {entry size : Nat} (hsize : structSize (entryType madt entry) = some size) :
    Known madt [entry] ↔ recordLength madt entry ≤ size ∧ entry + size < 2 ^ 32 ∧
      ((entryType madt entry).toNat = 2 → recordLength madt entry = size) := by
  simp only [Known, hsize, Option.some.injEq, exists_eq_left']

theorem ends_last_iff {s : Scan} {entry size : Nat} (hindex : s.currIndex = entry) (hptr : s.currPtr = entry)
    (hlow : madtSize ≤ entry) (hpos : 0 < recordLength madt entry)
    (hend : entry + recordLength madt entry = headerLength madt)
    (hsize : structSize (entryType madt entry) = some size) :
    Ends madt (s.next madt size) (Scan.Finished madt (s.entries ++ [entry])) ↔
      (∀ i ∈ s.reads, i < headerLength madt) ∧ Known madt [entry] := by
  obtain ⟨hsize0, hsize12, htwo⟩ := structSize_bounds hsize
  have hlength := headerLength_lt madt
  have hindex' : (s.next madt size).currIndex = (entry + size) % 2 ^ 32 := by rw [Scan.next, hindex]
  have hentries : (s.next madt size).entries = s.entries ++ [entry] := by rw [Scan.next, hptr]
  rw [known_last_iff hsize]
  by_cases hmore : scanMore madt (s.next madt size) = true
  · -- Another entry is examined, so the list of entries is too long.
    have hlt : (entry + size) % 2 ^ 32 < headerLength madt := by
      rw [← hindex']
      exact of_decide_eq_true hmore
    refine iff_of_false ?_ ?_
    · intro hends
      obtain ⟨t, ⟨hfinished, -⟩, hprefix⟩ := hends.examines hmore (by rw [hindex']; omega)
      have hlen := hprefix.length_le
      rw [hfinished, hentries] at hlen
      simp at hlen
    · rintro ⟨-, hle, hwrap, -⟩
      rw [Nat.mod_eq_of_lt hwrap] at hlt
      omega
  · rw [Bool.not_eq_true] at hmore
    have hge : headerLength madt ≤ (entry + size) % 2 ^ 32 := by
      rw [← hindex']
      exact Nat.le_of_not_lt (of_decide_eq_false hmore)
    rw [ends_of_done hmore, Scan.Finished, last_reads_iff hptr hpos hend]
    have hfits : recordLength madt entry ≤ size ∧ entry + size < 2 ^ 32 := by
      unfold madtSize at hlow
      omega
    constructor
    · rintro ⟨-, hinside, hten⟩
      refine ⟨hinside, hfits.1, hfits.2, fun htype => ?_⟩
      have := hten htype
      have := htwo htype
      omega
    · rintro ⟨hinside, -, -, heq⟩
      refine ⟨hentries, hinside, fun htype => ?_⟩
      have := heq htype
      have := htwo htype
      omega

/-- A record of a known type whose size is that of its struct keeps the loop in step. -/
theorem known_next_iff {s : Scan} {entry : Nat} {next : Nat} {rest : List Nat} (hptr : s.currPtr = entry)
    (hpos : 0 < recordLength madt entry) (hinside : entry + recordLength madt entry ≤ headerLength madt)
    (hsize : structSize (entryType madt entry) = some (recordLength madt entry)) :
    ((∀ i ∈ (s.next madt (recordLength madt entry)).reads, i < headerLength madt) ∧ Known madt (next :: rest)) ↔
      (∀ i ∈ s.reads, i < headerLength madt) ∧ Known madt (entry :: next :: rest) := by
  have htwo := (structSize_bounds hsize).2.2
  rw [next_reads_iff hptr, Known, hsize]
  constructor
  · rintro ⟨⟨hreads, -⟩, hknown⟩
    exact ⟨hreads, rfl, hknown⟩
  · rintro ⟨hreads, -, hknown⟩
    exact ⟨⟨hreads, by omega, fun htype => by have := htwo htype; omega⟩, hknown⟩

/-- From an entry on the loop stays in step exactly when the rest of the table is known. -/
theorem ends_iff_known {entry : Nat} {bs : List Nat} (h : Tiles madt entry bs) {s : Scan}
    (hlow : madtSize ≤ entry) (hindex : s.currIndex = entry) (hptr : s.currPtr = entry) :
    Ends madt s (Scan.Finished madt (s.entries ++ bs)) ↔
      (∀ i ∈ s.reads, i < headerLength madt) ∧ Known madt bs := by
  have hlength := headerLength_lt madt
  induction h generalizing s with
  | last =>
      have hend : scanMore madt s = false := by simp [scanMore, hindex]
      rw [ends_of_done hend, Scan.Finished, List.append_nil]
      simp [Known]
  | @record entry rest hpos htail ih =>
      have hinside := htail.le
      have hmore : scanMore madt s = true := by
        simp only [scanMore, hindex, decide_eq_true_eq]
        omega
      cases hsize : structSize (entryType madt entry) with
      | none =>
          refine iff_of_false ?_ ?_
          · rintro ⟨fuel, t, hdone, -⟩
            exact scan_stuck hmore (by omega) (by rw [hptr]; exact hsize) fuel hdone
          · rintro ⟨-, hknown⟩
            cases rest with
            | nil => simp [Known, hsize] at hknown
            | cons next rest => simp [Known, hsize] at hknown
      | some size =>
          rw [ends_next_iff hmore (by rw [hptr]; exact hsize)]
          rcases htail.inv with ⟨rfl, hend⟩ | ⟨rest', rfl⟩
          · exact ends_last_iff hindex hptr hlow hpos hend hsize
          by_cases hstep : size = recordLength madt entry
          · subst hstep
            have hnext := @ih (s.next madt (recordLength madt entry)) (by omega)
              (by rw [Scan.next, hindex, Nat.mod_eq_of_lt (by omega)]) (by rw [Scan.next, hptr])
            have hentries : (s.next madt (recordLength madt entry)).entries ++
                (entry + recordLength madt entry) :: rest' =
                  s.entries ++ entry :: (entry + recordLength madt entry) :: rest' := by
              simp [Scan.next, hptr]
            rw [← hentries]
            exact hnext.trans (known_next_iff hptr hpos hinside hsize)
          · refine iff_of_false (ends_out_of_step hptr hstep) ?_
            rintro ⟨-, hknown, -⟩
            exact hstep (Option.some.inj (hsize.symm.trans hknown))

end scan

/-- The parser stays in step with a table exactly when it knows the table's records. -/
theorem parseMadt_in_step_iff (madt : Nat → UInt8) {bs : List Nat} (h : Tiles madt madtSize bs) :
    ParsesInStep madt bs ↔ Known madt bs := by
  have hle := h.le
  have hstart : ∀ i ∈ scanStart.reads, i < headerLength madt := by
    have hheader : ∀ i ∈ scanStart.reads, i < madtSize := by decide
    exact fun i hi => (hheader i hi).trans_le hle
  have hends := ends_iff_known h (s := scanStart) (Nat.le_refl _) rfl rfl
  exact hends.trans (and_iff_right hstart)

/-- A table with the records behind a header that is zero but for its length. -/
def tableOf (records : List UInt8) : Nat → UInt8 := fun i =>
  if i = 4 then UInt8.ofNat (madtSize + records.length)
  else if i < madtSize then 0
  else records.getD (i - madtSize) 0

/-- A processor and a source override. -/
def twoRecords : Nat → UInt8 := tableOf [0, 8, 0, 0, 1, 0, 0, 0, 2, 10, 0, 0, 2, 0, 0, 0, 0, 0]

theorem twoRecords_tiles : Tiles twoRecords madtSize [44, 52] := by
  have hend : Tiles twoRecords (52 + recordLength twoRecords 52) [] := by
    rw [show 52 + recordLength twoRecords 52 = headerLength twoRecords by decide]
    exact .last
  exact .record (by decide) (.record (by decide) hend)

theorem parseMadt_two_records : Known twoRecords [44, 52] ∧ ParsesInStep twoRecords [44, 52] := by
  have hknown : Known twoRecords [44, 52] := ⟨by decide, 10, by decide, by decide, by decide, by decide⟩
  exact ⟨hknown, (parseMadt_in_step_iff twoRecords twoRecords_tiles).mpr hknown⟩

/-- One record of type 9, a local x2APIC. -/
def unknownRecord : Nat → UInt8 := tableOf (9 :: 16 :: List.replicate 14 0)

/-- A type without a case keeps the parser from coming to an end. -/
theorem parseMadt_unknown_record :
    Tiles unknownRecord madtSize [44] ∧ (∀ fuel s, parseMadt unknownRecord fuel ≠ .done s) ∧
      ¬ ParsesInStep unknownRecord [44] := by
  have hstuck : ∀ fuel s, parseMadt unknownRecord fuel ≠ .done s := by
    intro fuel s
    exact scan_stuck (by decide) (by decide) (by decide) fuel
  refine ⟨.record (by decide) ?_, hstuck, ?_⟩
  · rw [show madtSize + recordLength unknownRecord madtSize = headerLength unknownRecord by decide]
    exact .last
  · rintro ⟨fuel, s, hdone, -⟩
    exact hstuck fuel s hdone

end Lucix.Acpi
