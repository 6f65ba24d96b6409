import Lucix.Syscall

/-!
# Copies from user memory, `kernel/user.c`

Both functions of the file run one loop: an address is looked up, a byte is read and
stored, and the counter `total` goes up while it is at most the count. They differ in
the address that is looked up and in what ends the loop early. A run records the
addresses that are looked up and read, so that it can be compared with what the
caller asked for.
-/
namespace Lucix.Sys
open Mm

/-- The argument `usr + total` of the lookup in `copy_from_user`. -/
def copyLookup (usr total : Nat) : Nat := wrap64 (usr + total)

/-- The function `copy_from_user`. -/
def copyFromUserRun (user : UserSpace) (usr count : Nat) : CopyRun :=
  copyRun user (copyLookup usr) (fun _ => false) usr (count + 1) 0

/-- The first `k` addresses of a buffer. -/
def addresses (usr k : Nat) : List Nat := (List.range k).map fun i => wrap64 (usr + i)

/-- The first `k` bytes of a buffer. -/
def UserSpace.buffer (user : UserSpace) (usr k : Nat) : List UInt8 :=
  (List.range k).map fun i => user.bytes (wrap64 (usr + i))

@[simp] theorem length_addresses (usr k : Nat) : (addresses usr k).length = k := by
  simp [addresses]

@[simp] theorem length_buffer (user : UserSpace) (usr k : Nat) : (user.buffer usr k).length = k := by
  simp [UserSpace.buffer]

theorem mem_addresses {usr k addr : Nat} : addr ∈ addresses usr k ↔ ∃ i < k, wrap64 (usr + i) = addr := by
  simp [addresses]

/-! ### The loop -/

section loop
variable {user : UserSpace} (lookup : Nat → Nat) {stops : UInt8 → Bool} {usr left total : Nat}

theorem copyRun_unmapped (h : ¬ user.Mapped (lookup total)) :
    copyRun user lookup stops usr (left + 1) total = ⟨some (-1), [lookup total], [], []⟩ := by
  have hnone : findVmaForAddress (lookup total) user.areas = none := by
    simpa [UserSpace.Mapped] using h
  rw [copyRun, hnone]
  rfl

theorem copyRun_mapped (h : user.Mapped (lookup total)) :
    copyRun user lookup stops usr (left + 1) total =
      let rest :=
        if total + 1 = 2 ^ 63 then .done none
        else if stops (user.bytes (wrap64 (usr + total))) then .done (some (total + 1))
        else copyRun user lookup stops usr left (total + 1)
      ⟨rest.ret, lookup total :: rest.looked, wrap64 (usr + total) :: rest.read,
        user.bytes (wrap64 (usr + total)) :: rest.stored⟩ := by
  obtain ⟨area, harea⟩ := Option.isSome_iff_exists.mp h
  rw [copyRun, harea]

theorem copyRun_next (h : user.Mapped (lookup total)) (hlt : total + 1 < 2 ^ 63)
    (hgo : stops (user.bytes (wrap64 (usr + total))) = false) :
    copyRun user lookup stops usr (left + 1) total =
      let rest := copyRun user lookup stops usr left (total + 1)
      ⟨rest.ret, lookup total :: rest.looked, wrap64 (usr + total) :: rest.read,
        user.bytes (wrap64 (usr + total)) :: rest.stored⟩ := by
  rw [copyRun_mapped lookup h, if_neg (by omega), if_neg (by simp [hgo])]

/-- The first `k` bytes of a buffer, copied before the rest. -/
def CopyRun.behind (user : UserSpace) (usr k : Nat) (rest : CopyRun) : CopyRun :=
  ⟨rest.ret, addresses usr k ++ rest.looked, addresses usr k ++ rest.read,
    user.buffer usr k ++ rest.stored⟩

theorem addresses_succ (usr k : Nat) : addresses usr (k + 1) = addresses usr k ++ [wrap64 (usr + k)] := by
  simp [addresses, List.range_succ]

theorem buffer_succ (user : UserSpace) (usr k : Nat) :
    user.buffer usr (k + 1) = user.buffer usr k ++ [user.bytes (wrap64 (usr + k))] := by
  simp [UserSpace.buffer, List.range_succ]

theorem copyFromUser_advance {k : Nat} (left : Nat) (hmapped : ∀ i < k, user.Mapped (wrap64 (usr + i)))
    (hlt : k < 2 ^ 63) :
    copyRun user (copyLookup usr) (fun _ => false) usr (left + k) 0 =
      .behind user usr k (copyRun user (copyLookup usr) (fun _ => false) usr left k) := by
  induction k generalizing left with
  | zero => rfl
  | succ k ih =>
      have hk : user.Mapped (copyLookup usr k) := hmapped k (Nat.lt_succ_self k)
      rw [← Nat.succ_add_eq_add_succ, ih (left + 1) (fun i hi => hmapped i (by omega)) (by omega),
        copyRun_next _ hk hlt rfl]
      simp only [CopyRun.behind, copyLookup, addresses_succ, buffer_succ, List.append_assoc, List.singleton_append]

theorem copyFromUser_stops {count i : Nat} (hi : i ≤ count) (hlt : i < 2 ^ 63)
    (hmapped : ∀ j < i, user.Mapped (wrap64 (usr + j))) (hnot : ¬ user.Mapped (wrap64 (usr + i))) :
    copyFromUserRun user usr count =
      ⟨some (-1), addresses usr (i + 1), addresses usr i, user.buffer usr i⟩ := by
  obtain ⟨left, rfl⟩ := Nat.exists_eq_add_of_le hi
  have hsplit : i + left + 1 = left + 1 + i := by omega
  rw [copyFromUserRun, hsplit, copyFromUser_advance _ hmapped hlt, copyRun_unmapped (copyLookup usr) hnot,
    addresses_succ]
  simp only [CopyRun.behind, copyLookup, List.append_nil]

theorem copyFromUser_passes {count : Nat} (hlt : count < 2 ^ 63)
    (hmapped : ∀ i < count, user.Mapped (wrap64 (usr + i))) :
    wrap64 (usr + count) ∈ (copyFromUserRun user usr count).looked := by
  have hsplit : count + 1 = 1 + count := by omega
  rw [copyFromUserRun, hsplit, copyFromUser_advance _ hmapped hlt]
  by_cases hlast : user.Mapped (wrap64 (usr + count))
  · rw [copyRun_mapped (copyLookup usr) hlast]
    simp [CopyRun.behind, copyLookup]
  · rw [copyRun_unmapped (copyLookup usr) hlast]
    simp [CopyRun.behind, copyLookup]

/-- After `2 ^ 63` bytes the counter leaves its type. -/
theorem copyFromUser_overflows {count : Nat} (hge : 2 ^ 63 ≤ count)
    (hmapped : ∀ i < 2 ^ 63, user.Mapped (wrap64 (usr + i))) :
    (copyFromUserRun user usr count).ret = none := by
  obtain ⟨left, rfl⟩ := Nat.exists_eq_add_of_le hge
  have hsplit : 2 ^ 63 + left + 1 = left + 1 + 1 + (2 ^ 63 - 1) := by omega
  rw [copyFromUserRun, hsplit, copyFromUser_advance _ (fun i hi => hmapped i (by omega)) (by omega),
    copyRun_mapped (copyLookup usr) (hmapped _ (by omega)), if_pos (by omega)]
  rfl

/-- As long as the counter keeps its type, the run is the loop that `sys_write` calls. -/
theorem copyRun_copyLoop (hlt : total + left < 2 ^ 63) :
    (copyRun user (copyLookup usr) (fun _ => false) usr left total).ret =
      some (copyLoop user.areas user.bytes usr left total).1 ∧
    (copyRun user (copyLookup usr) (fun _ => false) usr left total).stored =
      (copyLoop user.areas user.bytes usr left total).2 := by
  induction left generalizing total with
  | zero => exact ⟨rfl, rfl⟩
  | succ left ih =>
      obtain ⟨hret, hstored⟩ := ih (show total + 1 + left < 2 ^ 63 by omega)
      rw [copyLoop]
      by_cases hmapped : user.Mapped (copyLookup usr total)
      · obtain ⟨area, harea⟩ := Option.isSome_iff_exists.mp hmapped
        rw [copyLookup] at harea
        rw [copyRun_next _ hmapped (by omega) rfl, harea]
        exact ⟨hret, congrArg (List.cons _) hstored⟩
      · have hnone : findVmaForAddress (wrap64 (usr + total)) user.areas = none := by
          simpa [UserSpace.Mapped, copyLookup] using hmapped
        rw [copyRun_unmapped _ hmapped, hnone]
        exact ⟨rfl, rfl⟩

theorem copyFromUserRun_eq {count : Nat} (hlt : count + 1 < 2 ^ 63) :
    (copyFromUserRun user usr count).ret = some (copyFromUser user.areas user.bytes usr count).1 ∧
    (copyFromUserRun user usr count).stored = (copyFromUser user.areas user.bytes usr count).2 :=
  copyRun_copyLoop (by omega)

end loop

/-! ### The function `copy_from_user` -/

/-- What a copy of `count` bytes should do. -/
structure CopyMeets (user : UserSpace) (usr count : Nat) (r : CopyRun) : Prop where
  all : r.ret = some (count : Int) ↔ ∀ i < count, user.Mapped (wrap64 (usr + i))
  bytes : r.ret = some (count : Int) → r.stored = user.buffer usr count
  fails : (∃ i < count, ¬ user.Mapped (wrap64 (usr + i))) → r.ret = some (-1)
  writes : r.stored.length ≤ count
  reads : ∀ addr ∈ r.read, ∃ i < count, wrap64 (usr + i) = addr
  needs : ∀ addr ∈ r.looked, ∃ i < count, wrap64 (usr + i) = addr

theorem wrap64_add_ne {usr i j : Nat} (hlt : i < j) (hj : j < 2 ^ 64) : wrap64 (usr + i) ≠ wrap64 (usr + j) := by
  simp only [wrap64]
  omega

/-- A copy is exact exactly when one of the bytes it is to copy is in no area. -/
theorem copyFromUser_meets_iff (user : UserSpace) (usr count : Nat) :
    CopyMeets user usr count (copyFromUserRun user usr count) ↔
      ∃ i < count, i < 2 ^ 63 ∧ ¬ user.Mapped (wrap64 (usr + i)) := by
  constructor
  · intro h
    by_contra hnone
    push Not at hnone
    by_cases hlt : count < 2 ^ 63
    · obtain ⟨i, hi, hsame⟩ := h.needs _ (copyFromUser_passes hlt fun i hi => hnone i hi (by omega))
      exact wrap64_add_ne hi (by omega) hsame
    · have hge : 2 ^ 63 ≤ count := Nat.not_lt.mp hlt
      have hnoret := copyFromUser_overflows hge fun i hi => hnone i (by omega) hi
      by_cases hall : ∀ i < count, user.Mapped (wrap64 (usr + i))
      · cases hnoret.symm.trans (h.all.mpr hall)
      · push Not at hall
        cases hnoret.symm.trans (h.fails hall)
  · intro hsome
    classical
    obtain ⟨hi, hlt, hnot⟩ := Nat.find_spec hsome
    have hmapped : ∀ j < Nat.find hsome, user.Mapped (wrap64 (usr + j)) := by
      intro j hj
      by_contra hj'
      exact Nat.find_min hsome hj ⟨by omega, by omega, hj'⟩
    generalize Nat.find hsome = i at hi hlt hnot hmapped
    rw [copyFromUser_stops (Nat.le_of_lt hi) hlt hmapped hnot]
    have hfail : (some (-1) : Option Int) ≠ some (count : Int) := by
      rw [ne_eq, Option.some.injEq]
      omega
    refine ⟨?_, ?_, fun _ => rfl, ?_, ?_, ?_⟩
    · exact ⟨fun hret => absurd hret hfail, fun hall => absurd (hall i hi) hnot⟩
    · exact fun hret => absurd hret hfail
    · simpa using Nat.le_of_lt hi
    · intro addr haddr
      obtain ⟨j, hj, hsame⟩ := mem_addresses.mp haddr
      exact ⟨j, by omega, hsame⟩
    · intro addr haddr
      obtain ⟨j, hj, hsame⟩ := mem_addresses.mp haddr
      exact ⟨j, by omega, hsame⟩

/-- An area of one page at `0x400000`, and a byte at every address. -/
def onePage : VmArea :=
  ⟨0x400000, 0x401000, 0x1000, ⟨true, true, false, true, false, 0⟩, ⟨true, false, false, 0⟩, none, 0, 0,
    .null⟩

def onePageUser : UserSpace := ⟨[onePage], fun addr => UInt8.ofNat (addr + 1)⟩

/-- A copy of one mapped byte copies two. -/
theorem copy_of_one_byte_copies_two :
    copyFromUserRun onePageUser 0x400000 1 =
      ⟨some 2, [0x400000, 0x400001], [0x400000, 0x400001], [1, 2]⟩ ∧
    ¬ ∀ (user : UserSpace) (usr count : Nat), CopyMeets user usr count (copyFromUserRun user usr count) := by
  have hrun : copyFromUserRun onePageUser 0x400000 1 =
      ⟨some 2, [0x400000, 0x400001], [0x400000, 0x400001], [1, 2]⟩ := by decide +kernel
  refine ⟨hrun, fun hall => ?_⟩
  have hwrites := (hall onePageUser 0x400000 1).writes
  rw [hrun] at hwrites
  exact absurd hwrites (by decide)

/-! ### The function `strncpy_from_user` -/

/-- The number of bytes up to the first zero byte of a buffer, or `n` if there is none before. -/
def UserSpace.wanted (user : UserSpace) (usr n : Nat) : Nat :=
  ((List.range n).findIdx? fun i => decide (user.bytes (wrap64 (usr + i)) = 0)).elim n (· + 1)

/-- What a copy of a string of at most `n` bytes should do: it reads up to the first byte that is in
no area, each byte after the lookup of its address. -/
structure StrncpyMeets (user : UserSpace) (usr n : Nat) (r : CopyRun) : Prop where
  copied : (∀ i < user.wanted usr n, user.Mapped (wrap64 (usr + i))) →
    r.ret = some (user.wanted usr n : Int) ∧ r.read = addresses usr (user.wanted usr n) ∧
      r.stored = user.buffer usr (user.wanted usr n)
  stopped : ∀ i < user.wanted usr n, (∀ j < i, user.Mapped (wrap64 (usr + j))) →
    ¬ user.Mapped (wrap64 (usr + i)) →
    r.ret = some (-1) ∧ r.read = addresses usr i ∧ r.stored = user.buffer usr i
  checked : ∀ k addr, r.read[k]? = some addr → addr ∈ r.looked.take (k + 1)
  writes : r.stored.length ≤ n

section strncpy
variable {user : UserSpace} {usr n : Nat}

theorem wanted_le (user : UserSpace) (usr n : Nat) : user.wanted usr n ≤ n := by
  unfold UserSpace.wanted
  cases hfound : (List.range n).findIdx? fun i => decide (user.bytes (wrap64 (usr + i)) = 0) with
  | none => exact Nat.le_refl n
  | some i =>
      have hlt := (List.findIdx?_eq_some_iff_getElem.mp hfound).1
      rw [List.length_range] at hlt
      exact hlt

theorem wanted_pos (user : UserSpace) (usr : Nat) (h : 0 < n) : 0 < user.wanted usr n := by
  unfold UserSpace.wanted
  cases (List.range n).findIdx? fun i => decide (user.bytes (wrap64 (usr + i)) = 0) with
  | none => exact h
  | some i => exact Nat.succ_pos i

theorem wanted_one (h : 0 < n) (hzero : user.bytes (wrap64 usr) = 0) : user.wanted usr n = 1 := by
  obtain ⟨m, rfl⟩ := Nat.exists_eq_add_of_le' h
  simp [UserSpace.wanted, List.range_succ_eq_map, List.findIdx?_cons, hzero]

theorem one_lt_wanted (h : 1 < n) (hbyte : user.bytes (wrap64 usr) ≠ 0) : 1 < user.wanted usr n := by
  obtain ⟨m, rfl⟩ := Nat.exists_eq_add_of_le' h
  unfold UserSpace.wanted
  rw [List.range_succ_eq_map, List.findIdx?_cons, Nat.add_zero, if_neg (by simpa using hbyte)]
  cases (List.map Nat.succ (List.range (m + 1))).findIdx? fun i => decide (user.bytes (wrap64 (usr + i)) = 0) with
  | none => exact Nat.lt_add_left m (Nat.lt_succ_self 1)
  | some i => exact Nat.succ_lt_succ (Nat.succ_pos i)

theorem strncpyLookup_eq (usr total : Nat) : strncpyLookup usr total = wrap64 (usr + 2 * total) := by
  simp only [strncpyLookup, wrap64]
  omega

theorem strncpyLookup_zero (usr : Nat) : strncpyLookup usr 0 = wrap64 usr := strncpyLookup_eq usr 0

theorem strncpyLookup_one (usr : Nat) : strncpyLookup usr 1 = wrap64 (usr + 2) := strncpyLookup_eq usr 1

theorem strncpy_unmapped (h : ¬ user.Mapped (wrap64 usr)) :
    strncpyFromUser user usr n = ⟨some (-1), [wrap64 usr], [], []⟩ := by
  rw [← strncpyLookup_zero] at h ⊢
  exact copyRun_unmapped _ h

theorem strncpy_empty (h : user.Mapped (wrap64 usr)) (hzero : user.bytes (wrap64 usr) = 0) :
    strncpyFromUser user usr n = ⟨some 1, [wrap64 usr], [wrap64 usr], [0]⟩ := by
  rw [← strncpyLookup_zero] at h
  rw [strncpyFromUser, copyRun_mapped _ h]
  simp [hzero, strncpyLookup_zero, CopyRun.done]

/-- Behind a first byte that does not end the string, the loop looks up the third. -/
theorem strncpy_second (h : user.Mapped (wrap64 usr)) (hbyte : user.bytes (wrap64 usr) ≠ 0) :
    strncpyFromUser user usr n =
      let rest := copyRun user (strncpyLookup usr) (fun byte => decide (byte = 0)) usr n 1
      ⟨rest.ret, wrap64 usr :: rest.looked, wrap64 usr :: rest.read,
        user.bytes (wrap64 usr) :: rest.stored⟩ := by
  rw [← strncpyLookup_zero] at h
  rw [strncpyFromUser, copyRun_next _ h (by decide) (by simpa using hbyte), strncpyLookup_zero]
  rfl

theorem strncpy_third_unmapped (h : user.Mapped (wrap64 usr)) (hbyte : user.bytes (wrap64 usr) ≠ 0)
    (hpos : 0 < n) (hthird : ¬ user.Mapped (wrap64 (usr + 2))) :
    strncpyFromUser user usr n = ⟨some (-1), [wrap64 usr, wrap64 (usr + 2)], addresses usr 1, user.buffer usr 1⟩ := by
  obtain ⟨m, rfl⟩ := Nat.exists_eq_add_of_le' hpos
  rw [← strncpyLookup_one] at hthird
  rw [strncpy_second h hbyte, copyRun_unmapped _ hthird, strncpyLookup_one]
  rfl

/-- If the third byte is mapped, the second is read without a lookup of its address. -/
theorem strncpy_third_mapped (h : user.Mapped (wrap64 usr)) (hbyte : user.bytes (wrap64 usr) ≠ 0)
    (hpos : 0 < n) (hthird : user.Mapped (wrap64 (usr + 2))) :
    ¬ StrncpyMeets user usr n (strncpyFromUser user usr n) := by
  obtain ⟨m, rfl⟩ := Nat.exists_eq_add_of_le' hpos
  intro hmeets
  rw [← strncpyLookup_one] at hthird
  have hchecked := hmeets.checked 1 (wrap64 (usr + 1))
  rw [strncpy_second h hbyte, copyRun_mapped _ hthird, strncpyLookup_one] at hchecked
  have hmem : wrap64 (usr + 1) ∈ [wrap64 usr, wrap64 (usr + 2)] := by
    simpa using hchecked rfl
  rcases List.mem_cons.mp hmem with hfirst | hmem
  · exact wrap64_add_ne (i := 0) (j := 1) (by decide) (by decide) hfirst.symm
  · exact wrap64_add_ne (i := 1) (j := 2) (by decide) (by decide) (List.mem_singleton.mp hmem)

theorem wanted_zero (user : UserSpace) (usr : Nat) : user.wanted usr 0 = 0 := Nat.le_zero.mp (wanted_le user usr 0)

/-- Nothing is to be read for `n = 0`, and the loop looks at the first byte all the same. -/
theorem strncpy_none (user : UserSpace) (usr : Nat) : ¬ StrncpyMeets user usr 0 (strncpyFromUser user usr 0) := by
  intro h
  obtain ⟨hret, hread, -⟩ := h.copied (by simp [wanted_zero])
  rw [wanted_zero] at hret hread
  by_cases hfirst : user.Mapped (wrap64 usr)
  · by_cases hzero : user.bytes (wrap64 usr) = 0
    · rw [strncpy_empty hfirst hzero] at hread
      cases hread
    · rw [strncpy_second hfirst hzero] at hread
      cases hread
  · rw [strncpy_unmapped hfirst] at hret
    cases hret

theorem strncpy_unmapped_meets (hpos : 0 < n) (hfirst : ¬ user.Mapped (wrap64 usr)) :
    StrncpyMeets user usr n (strncpyFromUser user usr n) := by
  rw [strncpy_unmapped hfirst]
  refine ⟨fun hall => absurd (hall 0 (wanted_pos user usr hpos)) hfirst, ?_, ?_, Nat.zero_le n⟩
  · intro i _ hmapped _
    obtain rfl : i = 0 := by
      by_contra hne
      exact hfirst (hmapped 0 (Nat.pos_of_ne_zero hne))
    exact ⟨rfl, rfl, rfl⟩
  · intro k addr hread
    cases hread

theorem strncpy_empty_meets (hpos : 0 < n) (hfirst : user.Mapped (wrap64 usr))
    (hzero : user.bytes (wrap64 usr) = 0) : StrncpyMeets user usr n (strncpyFromUser user usr n) := by
  rw [strncpy_empty hfirst hzero]
  refine ⟨fun _ => ?_, ?_, ?_, hpos⟩
  · rw [wanted_one hpos hzero]
    exact ⟨rfl, rfl, congrArg (fun byte => [byte]) hzero.symm⟩
  · intro i hi _ hnot
    rw [wanted_one hpos hzero, Nat.lt_one_iff] at hi
    subst hi
    exact absurd hfirst hnot
  · intro k addr hread
    cases k with
    | zero => simpa using hread.symm
    | succ k => cases hread

/-- With the third byte in no area the copy fails in front of the second. -/
theorem strncpy_third_meets_iff (hpos : 0 < n) (hfirst : user.Mapped (wrap64 usr))
    (hbyte : user.bytes (wrap64 usr) ≠ 0) (hthird : ¬ user.Mapped (wrap64 (usr + 2))) :
    StrncpyMeets user usr n (strncpyFromUser user usr n) ↔ 1 < n ∧ ¬ user.Mapped (wrap64 (usr + 1)) := by
  rw [strncpy_third_unmapped hfirst hbyte hpos hthird]
  constructor
  · intro h
    have hnone : ¬ ∀ i < user.wanted usr n, user.Mapped (wrap64 (usr + i)) := by
      intro hall
      have hret := (h.copied hall).1
      rw [Option.some.injEq] at hret
      omega
    have hmiss : ∃ i, i < user.wanted usr n ∧ ¬ user.Mapped (wrap64 (usr + i)) := by
      push Not at hnone
      exact hnone
    classical
    obtain ⟨hi, hnot⟩ := Nat.find_spec hmiss
    have hmapped : ∀ j < Nat.find hmiss, user.Mapped (wrap64 (usr + j)) := by
      intro j hj
      by_contra hj'
      exact Nat.find_min hmiss hj ⟨by omega, hj'⟩
    generalize Nat.find hmiss = i at hi hnot hmapped
    -- one byte was read, so the first one in no area is the second
    have hone : i = 1 := by
      have hread := congrArg List.length (h.stopped i hi hmapped hnot).2.1
      simpa using hread.symm
    subst hone
    exact ⟨Nat.lt_of_lt_of_le hi (wanted_le user usr n), hnot⟩
  · rintro ⟨hn, hsecond⟩
    have hwanted := one_lt_wanted hn hbyte
    refine ⟨fun hall => absurd (hall 1 hwanted) hsecond, ?_, ?_, hpos⟩
    · intro i _ hmapped hnot
      have hlow : i ≠ 0 := by
        rintro rfl
        exact hnot hfirst
      have hhigh : ¬ 1 < i := fun hlt => hsecond (hmapped 1 hlt)
      obtain rfl : i = 1 := by omega
      exact ⟨rfl, rfl, rfl⟩
    · intro k addr hread
      cases k with
      | zero =>
          obtain rfl : wrap64 (usr + 0) = addr := by simpa [addresses] using hread
          exact List.mem_cons_self
      | succ k => cases hread

/-- A string is copied as it should exactly when the first byte is in no area or is zero, or when
the second and the third are in no area. -/
theorem strncpyFromUser_meets_iff (user : UserSpace) (usr n : Nat) :
    StrncpyMeets user usr n (strncpyFromUser user usr n) ↔
      0 < n ∧ (¬ user.Mapped (wrap64 usr) ∨ user.bytes (wrap64 usr) = 0 ∨
        1 < n ∧ ¬ user.Mapped (wrap64 (usr + 1)) ∧ ¬ user.Mapped (wrap64 (usr + 2))) := by
  rcases Nat.eq_zero_or_pos n with rfl | hpos
  · simpa using strncpy_none user usr
  by_cases hfirst : user.Mapped (wrap64 usr)
  case neg => simp [hpos, hfirst, strncpy_unmapped_meets hpos hfirst]
  case pos =>
    by_cases hbyte : user.bytes (wrap64 usr) = 0
    case pos => simp [hpos, hbyte, strncpy_empty_meets hpos hfirst hbyte]
    case neg =>
      by_cases hthird : user.Mapped (wrap64 (usr + 2))
      case pos => simp [hfirst, hbyte, hthird, strncpy_third_mapped hfirst hbyte hpos hthird]
      case neg => simp [hpos, hfirst, hbyte, hthird, strncpy_third_meets_iff hpos hfirst hbyte hthird]

end strncpy

/-- The last bytes of an area: the string `ab` ends in front of the boundary, and the copy asks for
the byte behind it. -/
def lastString : UserSpace :=
  ⟨[onePage], fun addr => if addr = 0x400ffd then 97 else if addr = 0x400ffe then 98 else 0⟩

theorem string_at_boundary_fails :
    strncpyFromUser lastString 0x400ffd 256 =
      ⟨some (-1), [0x400ffd, 0x400fff, 0x401001], [0x400ffd, 0x400ffe], [97, 98]⟩ ∧
    ¬ ∀ (user : UserSpace) (usr n : Nat), StrncpyMeets user usr n (strncpyFromUser user usr n) := by
  have hrun : strncpyFromUser lastString 0x400ffd 256 =
      ⟨some (-1), [0x400ffd, 0x400fff, 0x401001], [0x400ffd, 0x400ffe], [97, 98]⟩ := by decide +kernel
  refine ⟨hrun, fun hall => ?_⟩
  have hchecked := (hall lastString 0x400ffd 256).checked 1 0x400ffe
  rw [hrun] at hchecked
  exact absurd (hchecked rfl) (by decide)

end Lucix.Sys
