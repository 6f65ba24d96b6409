import Lucix.UserCopy

/-! Opening files. A call of `sys_open` leaves its array unless the path ends in time, and it returns
the number of the slot that it has filled only where that is the first one. -/
namespace Lucix.Sys

/-! ### The path -/

/-- The string ends before the array is full: all addresses that are looked up and read on the way are
mapped. -/
def StringFits (user : UserSpace) (path : Nat) : Prop :=
  ∃ k < 256, (∀ i ≤ k, user.Mapped (wrap64 (path + 2 * i)) ∧ user.Mapped (wrap64 (path + i))) ∧
    (∀ i < k, user.bytes (wrap64 (path + i)) ≠ 0) ∧ user.bytes (wrap64 (path + k)) = 0

/-- The copy is cut short by an address that is looked up and not mapped, and behind what has been copied
the array has a null character left from before. -/
def StringCut (user : UserSpace) (path : Nat) (pathk : Nat → UInt8) : Prop :=
  ∃ k < 256, (∀ i < k, (user.Mapped (wrap64 (path + 2 * i)) ∧ user.Mapped (wrap64 (path + i))) ∧
      user.bytes (wrap64 (path + i)) ≠ 0) ∧
    ¬ user.Mapped (wrap64 (path + 2 * k)) ∧ ∃ j < 256, k ≤ j ∧ pathk j = 0

/-- The array holds a string after the copy, and nothing was stored behind it. -/
def PathFits (user : UserSpace) (path : Nat) (pathk : Nat → UInt8) : Prop :=
  StringFits user path ∨ StringCut user path pathk

section path
variable {user : UserSpace} {path k : Nat} {pathk : Nat → UInt8}

/-- The loop goes on behind this byte. -/
def UserSpace.Passes (user : UserSpace) (path i : Nat) : Prop :=
  user.Mapped (wrap64 (path + 2 * i)) ∧ user.bytes (wrap64 (path + i)) ≠ 0

instance (user : UserSpace) (path : Nat) : DecidablePred (user.Passes path) := fun _ =>
  inferInstanceAs (Decidable (_ ∧ _))

/-- What is read and stored on the way. -/
theorem strncpy_passes (left : Nat) (hk : k < 2 ^ 63) (h : ∀ i < k, user.Passes path i) :
    (copyRun user (strncpyLookup path) (fun byte => decide (byte = 0)) path (left + k) 0).read =
        addresses path k ++ (copyRun user (strncpyLookup path) (fun byte => decide (byte = 0)) path left k).read ∧
      (copyRun user (strncpyLookup path) (fun byte => decide (byte = 0)) path (left + k) 0).stored =
        user.buffer path k ++
          (copyRun user (strncpyLookup path) (fun byte => decide (byte = 0)) path left k).stored := by
  induction k generalizing left with
  | zero => exact ⟨rfl, rfl⟩
  | succ k ih =>
      obtain ⟨hmapped, hbyte⟩ := h k (Nat.lt_succ_self k)
      rw [← strncpyLookup_eq] at hmapped
      obtain ⟨hread, hstored⟩ := ih (left + 1) (by omega) fun i hi => h i (by omega)
      rw [copyRun_next _ hmapped hk (by simpa using hbyte)] at hread hstored
      rw [← Nat.succ_add_eq_add_succ, addresses_succ, buffer_succ, List.append_assoc, List.append_assoc]
      exact ⟨hread, hstored⟩

theorem find_unmapped_eq_none (n : Nat) :
    ((addresses path n).find? fun addr => !decide (user.Mapped addr)) = none ↔
      ∀ i < n, user.Mapped (wrap64 (path + i)) := by
  simp only [List.find?_eq_none, mem_addresses, Bool.not_eq_true', decide_eq_false_iff_not, not_not]
  constructor
  · exact fun h i hi => h _ ⟨i, hi, rfl⟩
  · rintro h addr ⟨i, hi, rfl⟩
    exact h i hi

theorem copyPath_of {n : Nat} (hread : (strncpyFromUser user path 256).read = addresses path n)
    (hstored : (strncpyFromUser user path 256).stored = user.buffer path n) :
    copyPath user path pathk = .ok () ↔ (∀ i < n, user.Mapped (wrap64 (path + i))) ∧ n ≤ 256 ∧
      ((∃ i < n, user.bytes (wrap64 (path + i)) = 0) ∨ ∃ j < 256, n ≤ j ∧ pathk j = 0) := by
  have hzero : (user.buffer path n).contains 0 = true ↔ ∃ i < n, user.bytes (wrap64 (path + i)) = 0 := by
    simp [UserSpace.buffer]
  have hrest : ((List.range' n (256 - n)).any fun i => decide (pathk i = 0)) = true ↔
      ∃ j < 256, n ≤ j ∧ pathk j = 0 := by
    simp only [List.any_eq_true, List.mem_range'_1, decide_eq_true_eq]
    constructor
    · rintro ⟨j, ⟨hge, hlt⟩, hj⟩
      exact ⟨j, by omega, hge, hj⟩
    · rintro ⟨j, hlt, hge, hj⟩
      exact ⟨j, ⟨hge, by omega⟩, hj⟩
  rw [← find_unmapped_eq_none, ← hzero, ← hrest, ← Bool.or_eq_true]
  unfold copyPath
  simp only [hread, hstored, length_buffer]
  cases (addresses path n).find? fun addr => !decide (user.Mapped addr) with
  | some addr => simp
  | none => split_ifs <;> simp_all

/-- How the loop ends: behind 257 bytes, at an address that is not mapped, or behind a null
character. -/
theorem strncpy_ends (user : UserSpace) (path : Nat) : ∃ n,
    ((strncpyFromUser user path 256).read = addresses path n ∧
      (strncpyFromUser user path 256).stored = user.buffer path n) ∧
    ((n = 257 ∧ ∀ i < n, user.Passes path i) ∨
      (n < 257 ∧ (∀ i < n, user.Passes path i) ∧ ¬ user.Mapped (wrap64 (path + 2 * n))) ∨
      ∃ k < 257, n = k + 1 ∧ (∀ i < k, user.Passes path i) ∧ user.Mapped (wrap64 (path + 2 * k)) ∧
        user.bytes (wrap64 (path + k)) = 0) := by
  by_cases hall : ∀ i < 257, user.Passes path i
  · obtain ⟨hread, hstored⟩ := strncpy_passes 0 (by norm_num) hall
    rw [Nat.zero_add] at hread hstored
    refine ⟨257, ⟨?_, ?_⟩, .inl ⟨rfl, hall⟩⟩
    · exact hread.trans (List.append_nil _)
    · exact hstored.trans (List.append_nil _)
  · have hex : ∃ i, i < 257 ∧ ¬ user.Passes path i := by simpa using hall
    obtain ⟨hlt, hstop⟩ := Nat.find_spec hex
    have hpass : ∀ i < Nat.find hex, user.Passes path i := by
      intro i hi
      have hmin := Nat.find_min hex hi
      by_contra hno
      exact hmin ⟨by omega, hno⟩
    generalize Nat.find hex = k at hlt hstop hpass
    obtain ⟨hread, hstored⟩ := strncpy_passes (257 - k) (by omega) hpass
    rw [show 257 - k + k = 257 by omega, show 257 - k = 256 - k + 1 by omega] at hread hstored
    by_cases hm : user.Mapped (wrap64 (path + 2 * k))
    · have hzero : user.bytes (wrap64 (path + k)) = 0 := by
        by_contra hne
        exact hstop ⟨hm, hne⟩
      have hm' := hm
      rw [← strncpyLookup_eq] at hm'
      rw [copyRun_mapped _ hm', if_neg (by omega), if_pos (by simpa using hzero)] at hread hstored
      refine ⟨k + 1, ⟨?_, ?_⟩, .inr (.inr ⟨k, hlt, rfl, hpass, hm, hzero⟩)⟩
      · rw [addresses_succ]
        exact hread
      · rw [buffer_succ]
        exact hstored
    · have hm' := hm
      rw [← strncpyLookup_eq] at hm'
      rw [copyRun_unmapped _ hm'] at hread hstored
      refine ⟨k, ⟨?_, ?_⟩, .inr (.inl ⟨hlt, hpass, hm⟩)⟩
      · exact hread.trans (List.append_nil _)
      · exact hstored.trans (List.append_nil _)

theorem copyPath_iff : copyPath user path pathk = .ok () ↔ PathFits user path pathk := by
  obtain ⟨n, ⟨hread, hstored⟩, hend⟩ := strncpy_ends user path
  rw [copyPath_of hread hstored]
  rcases hend with ⟨rfl, hpass⟩ | ⟨hlt, hpass, hnot⟩ | ⟨k, hlt, rfl, hpass, hmapped, hzero⟩
  · refine iff_of_false (fun h => absurd h.2.1 (by decide)) ?_
    rintro (⟨k, hk, -, -, hbyte⟩ | ⟨k, hk, -, hcut, -⟩)
    · exact (hpass k (by omega)).2 hbyte
    · exact hcut (hpass k (by omega)).1
  · constructor
    · rintro ⟨hreads, -, ⟨i, hi, hbyte⟩ | ⟨j, hj, hge, hold⟩⟩
      · exact absurd hbyte (hpass i hi).2
      · exact .inr ⟨n, by omega, fun i hi => ⟨⟨(hpass i hi).1, hreads i hi⟩, (hpass i hi).2⟩, hnot, j, hj,
          hge, hold⟩
    · rintro (⟨k, hk, hmapped, -, hbyte⟩ | ⟨k, hk, hmapped, hcut, j, hj, hge, hold⟩)
      · rcases Nat.lt_or_ge k n with hkn | hkn
        · exact absurd hbyte (hpass k hkn).2
        · exact absurd (hmapped n hkn).1 hnot
      · obtain rfl : k = n := by
          rcases Nat.lt_trichotomy k n with hkn | hkn | hkn
          · exact absurd (hpass k hkn).1 hcut
          · exact hkn
          · exact absurd (hmapped n hkn).1.1 hnot
        exact ⟨fun i hi => (hmapped i hi).1.2, by omega, .inr ⟨j, hj, hge, hold⟩⟩
  · constructor
    · rintro ⟨hreads, hle, -⟩
      refine .inl ⟨k, by omega, fun i hi => ⟨?_, hreads i (by omega)⟩, fun i hi => (hpass i hi).2, hzero⟩
      rcases Nat.lt_or_eq_of_le hi with hi | rfl
      · exact (hpass i hi).1
      · exact hmapped
    · rintro (⟨k', hk', hmapped', hbytes, hbyte⟩ | ⟨k', hk', hmapped', hcut, -⟩)
      · obtain rfl : k' = k := by
          rcases Nat.lt_trichotomy k' k with h | h | h
          · exact absurd hbyte (hpass k' h).2
          · exact h
          · exact absurd hzero (hbytes k h)
        exact ⟨fun i hi => (hmapped' i (by omega)).2, by omega, .inl ⟨k', by omega, hzero⟩⟩
      · rcases Nat.lt_trichotomy k' k with h | rfl | h
        · exact absurd (hpass k' h).1 hcut
        · exact absurd hmapped hcut
        · exact absurd hzero (hmapped' k h).2

end path

/-! ### Descriptors over runs of `sys_open` -/

structure OpenCall where
  user : UserSpace
  path : Nat
  opening : Opening

def OpenCall.result (call : OpenCall) (table : FdTable) : Except Fault (Int × FdTable) :=
  sysOpen call.user table call.path call.opening

def openStep (table : FdTable) (call : OpenCall) : Option FdTable :=
  (call.result table).toOption.map Prod.snd

/-- What the result of a call should be: a free slot that now has the file and a number not
returned before, or an error. -/
def Opens (table : FdTable) (earlier : List Int) (call : OpenCall)
    (result : Except Fault (Int × FdTable)) : Prop :=
  match call.opening.opened with
  | none => ∃ code < 0, result = .ok (code, table)
  | some fp => ∃ (n : Nat) (table' : FdTable), result = .ok (n, table') ∧ n < table'.tableSize ∧
      table.slot n = none ∧ table'.slot n = some fp ∧ (∀ k ≠ n, table'.slot k = table.slot k) ∧
      (n : Int) ∉ earlier

/-- Every call of a run has the result it should have; `earlier` are the descriptors returned. -/
def NamesFiles : FdTable → List Int → List OpenCall → Prop
  | _, _, [] => True
  | table, earlier, call :: calls =>
      Opens table earlier call (call.result table) ∧
      ∀ ret table', call.result table = .ok (ret, table') →
        NamesFiles table' (if call.opening.opened.isSome then ret :: earlier else earlier) calls

/-- The condition on a call: its path fits, and `vfs_open` fails or the slot `0` is there and free. -/
def OpensClean (table : FdTable) (call : OpenCall) : Prop :=
  PathFits call.user call.path call.opening.pathk ∧
    (call.opening.opened = none ∨ table.fd[0]? = some none)

section opening
variable {user : UserSpace} {table table' : FdTable} {path fp : Nat} {opening : Opening} {earlier : List Int}
  {call : OpenCall}

theorem copyPath_of_sysOpen {r : Int × FdTable} (h : sysOpen user table path opening = .ok r) :
    copyPath user path opening.pathk = .ok () := by
  cases hcopy : copyPath user path opening.pathk with
  | error fault =>
      rw [sysOpen, hcopy] at h
      cases h
  | ok _ => rfl

theorem sysOpen_copied (h : copyPath user path opening.pathk = .ok ()) :
    sysOpen user table path opening =
      match opening.opened with
      | none => .ok (-1, table)
      | some fp => (taskFdTableGetFreeFdSlot table opening.memory).map fun r => (0, ⟨r.2.fd.set r.1 (some fp)⟩) := by
  rw [sysOpen, h]
  cases opening.opened with
  | none => rfl
  | some fp =>
      show (taskFdTableGetFreeFdSlot table opening.memory).bind _ = _
      cases taskFdTableGetFreeFdSlot table opening.memory <;> rfl

theorem sysOpen_ret {ret : Int} (hopened : opening.opened = some fp)
    (h : sysOpen user table path opening = .ok (ret, table')) : ret = 0 := by
  rw [sysOpen_copied (copyPath_of_sysOpen h), hopened] at h
  dsimp only at h
  cases hslot : taskFdTableGetFreeFdSlot table opening.memory with
  | error fault =>
      rw [hslot] at h
      cases h
  | ok found =>
      rw [hslot] at h
      cases h
      rfl

/-- With the slot `0` free, the number returned is the slot that is filled. -/
theorem sysOpen_zeroFree (hfits : PathFits user path opening.pathk) (hopened : opening.opened = some fp)
    (h : table.fd[0]? = some none) :
    sysOpen user table path opening = .ok (0, ⟨table.fd.set 0 (some fp)⟩) := by
  rw [sysOpen_copied (copyPath_iff.mpr hfits), hopened]
  obtain ⟨fd⟩ := table
  cases fd with
  | nil => cases h
  | cons first rest =>
      obtain rfl : first = none := Option.some.inj h
      rfl

/-- A call that opens a file does so as it should exactly when its path fits and the slot `0` is
free. -/
theorem opens_some_iff (hopened : call.opening.opened = some fp)
    (hearlier : table.slot 0 = none → (0 : Int) ∉ earlier) :
    Opens table earlier call (call.result table) ↔
      PathFits call.user call.path call.opening.pathk ∧ table.fd[0]? = some none := by
  rw [Opens, hopened]
  constructor
  · rintro ⟨n, table', hok, hlt, hfree, -⟩
    have hcopy := copyPath_of_sysOpen hok
    refine ⟨copyPath_iff.mp hcopy, ?_⟩
    obtain rfl : n = 0 := Int.ofNat.inj (sysOpen_ret hopened hok)
    obtain ⟨fd⟩ := table
    cases fd with
    | nil =>
        have hgrow : ∀ memory, taskFdTableGetFreeFdSlot ⟨[]⟩ memory = .error .newTable := by decide
        rw [OpenCall.result, sysOpen_copied hcopy, hopened, hgrow] at hok
        cases hok
    | cons first rest =>
        obtain rfl : first = none := hfree
        rfl
  · rintro ⟨hfits, hzero⟩
    have hslot : table.slot 0 = none := by
      rw [FdTable.slot, hzero]
      rfl
    have hpos : 0 < table.fd.length := (List.getElem?_eq_some_iff.mp hzero).1
    refine ⟨0, _, sysOpen_zeroFree hfits hopened hzero, ?_, hslot, ?_, ?_, hearlier hslot⟩
    · rw [FdTable.tableSize, List.length_set]
      exact hpos
    · rw [FdTable.slot, List.getElem?_set_self hpos]
      rfl
    · intro k hk
      rw [FdTable.slot, FdTable.slot, List.getElem?_set_ne hk.symm]

/-- A call that opens none returns an error exactly when its path fits. -/
theorem opens_none_iff (hopened : call.opening.opened = none) :
    Opens table earlier call (call.result table) ↔ PathFits call.user call.path call.opening.pathk := by
  rw [Opens, hopened, ← copyPath_iff]
  constructor
  · rintro ⟨code, -, hok⟩
    exact copyPath_of_sysOpen hok
  · intro hcopy
    refine ⟨-1, by decide, ?_⟩
    rw [OpenCall.result, sysOpen_copied hcopy, hopened]

theorem namesFiles_iff {calls : List OpenCall} (hearlier : table.slot 0 = none → (0 : Int) ∉ earlier) :
    NamesFiles table earlier calls ↔ Execution.Guarded openStep OpensClean table calls := by
  induction calls generalizing table earlier with
  | nil => exact Iff.rfl
  | cons call calls ih =>
      unfold NamesFiles Execution.Guarded
      cases hopened : call.opening.opened with
      | none =>
          have hclean : OpensClean table call ↔ PathFits call.user call.path call.opening.pathk :=
            and_iff_left (.inl hopened)
          rw [opens_none_iff hopened, hclean]
          refine and_congr_right fun hfits => ?_
          have hresult : call.result table = .ok (-1, table) := by
            rw [OpenCall.result, sysOpen_copied (copyPath_iff.mpr hfits), hopened]
          have hstep : openStep table call = some table := by
            rw [openStep, hresult]
            rfl
          rw [hstep]
          constructor
          · exact fun hrest => (ih hearlier).mp (hrest _ _ hresult)
          · intro hrest ret table' hok
            cases hresult.symm.trans hok
            exact (ih hearlier).mpr hrest
      | some fp =>
          have hclean : OpensClean table call ↔
              PathFits call.user call.path call.opening.pathk ∧ table.fd[0]? = some none := by
            rw [OpensClean, hopened, or_iff_right (Option.some_ne_none fp)]
          rw [opens_some_iff hopened hearlier, hclean]
          refine and_congr_right fun ⟨hfits, hzero⟩ => ?_
          have hpos : 0 < table.fd.length := (List.getElem?_eq_some_iff.mp hzero).1
          have hresult : call.result table = .ok (0, ⟨table.fd.set 0 (some fp)⟩) :=
            sysOpen_zeroFree hfits hopened hzero
          have hstep : openStep table call = some ⟨table.fd.set 0 (some fp)⟩ := by
            rw [openStep, hresult]
            rfl
          -- the slot `0` is in use from here on
          have hused : ∀ earlier' : List Int,
              FdTable.slot ⟨table.fd.set 0 (some fp)⟩ 0 = none → (0 : Int) ∉ earlier' := by
            intro earlier' hnone
            rw [FdTable.slot, List.getElem?_set_self hpos] at hnone
            cases hnone
          rw [hstep]
          constructor
          · exact fun hrest => (ih (hused _)).mp (hrest _ _ hresult)
          · intro hrest ret table' hok
            cases hresult.symm.trans hok
            exact (ih (hused _)).mpr hrest

end opening

/-- A call with an empty path in the first byte of a page. -/
def openEmpty (fp : Nat) : OpenCall :=
  ⟨⟨[onePage], fun _ => 0⟩, 0x400000, ⟨fun _ => 0, some fp, true⟩⟩

end Lucix.Sys
