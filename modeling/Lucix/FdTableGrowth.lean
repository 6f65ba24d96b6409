import Lucix.Kmalloc
import Lucix.Syscall

/-! The descriptor table as the object that `fd` points to: `task_fd_table_get_free_fd_slot`
with its `memset` and `memcpy` on the words of that object, and its growth over whole runs. -/
namespace Lucix.Sys
open Execution ObjCache

/-! ### The table and its object -/

/-- The struct `fd_table`: the words of the object that `fd` points to, and `table_size`. -/
structure FdObject where
  words : List Nat
  tableSize : Nat
  deriving DecidableEq, Repr

/-- The table that `create_task` makes. -/
def createFdObject : FdObject := ⟨List.replicate 32 0, 32⟩

/-- Clear the first `n` words of an object; `none` when they are more than it has. -/
def memsetWords (object : List Nat) (n : Nat) : Option (List Nat) :=
  if n ≤ object.length then some (List.replicate n 0 ++ object.drop n) else none

/-- Copy `n` words between objects. -/
def memcpyWords (dst src : List Nat) (n : Nat) : Option (List Nat) :=
  if n ≤ dst.length ∧ n ≤ src.length then some (src.take n ++ dst.drop n) else none

/-- A call with the file that is then put into the slot, and what `kmalloc` finds: whether there
is memory, and what an object held before. -/
structure FdCall where
  file : Nat
  opened : file ≠ 0
  memory : Bool
  stale : Nat → Nat

/-- The object that `kmalloc` returns, of the size of its class. -/
def FdCall.kmalloc (call : FdCall) (size : Nat) : Option (List Nat) :=
  if call.memory then (kmallocBytes size).map fun bytes => (List.range (bytes / 8)).map call.stale else none

/-- The loop over the slots, with `left` slots from `i` on; `none` when a read leaves the object. -/
def freeSlotFrom (words : List Nat) : Nat → Nat → Option (Option Nat)
  | 0, _ => some none
  | left + 1, i =>
      match words[i]? with
      | none => none
      | some word => if word = 0 then some (some i) else freeSlotFrom words left (i + 1)

/-- The part behind the loop; `none` when `memset` runs through a null pointer or out of the object. -/
def growFdObject (s : FdObject) (call : FdCall) : Option (Int × FdObject) :=
  (call.kmalloc (8 * s.tableSize + 32)).bind fun new =>
    (memsetWords new (s.tableSize + 32)).bind fun new =>
      (memcpyWords new s.words s.tableSize).map fun new =>
        ((s.tableSize : Int), ⟨new, s.tableSize + 32⟩)

/-- The function `task_fd_table_get_free_fd_slot`. -/
def getFreeFdSlot (s : FdObject) (call : FdCall) : Option (Int × FdObject) :=
  (freeSlotFrom s.words s.tableSize 0).bind fun found =>
    match found with
    | some i => some ((i : Int), s)
    | none => growFdObject s call

/-- A call, and the store of the file into the slot that it returned. -/
def fdStep (s : FdObject) (call : FdCall) : Option FdObject :=
  (getFreeFdSlot s call).map fun (slot, t) => { t with words := t.words.set slot.toNat call.file }

/-! ### What growing is for -/

/-- No slot is free. -/
def FdObject.Full (s : FdObject) : Prop := ∀ i < s.tableSize, s.words[i]? ≠ some 0

instance (s : FdObject) : Decidable s.Full := inferInstanceAs (Decidable (∀ i < s.tableSize, _))

/-- A call on a full table gets an object of a size class with room for 32 more entries, keeps the
old ones, clears the new ones and returns the first of them; or it has no object, returns an error
and leaves the table as it is. -/
def GrowthMeets (s : FdObject) (call : FdCall) : Prop :=
  s.Full → match call.kmalloc (8 * s.tableSize + 32) with
    | some new => (∃ i e, SmallestClass (8 * s.tableSize + 32) i e ∧ new.length = e.1 / 8 ∧
          8 * (s.tableSize + 32) ≤ e.1) ∧
        ∃ t, getFreeFdSlot s call = some ((s.tableSize : Int), t) ∧ t.tableSize = s.tableSize + 32 ∧
          t.words.length = new.length ∧ (∀ i < s.tableSize, t.words[i]? = s.words[i]?) ∧
          ∀ i, s.tableSize ≤ i → i < s.tableSize + 32 → t.words[i]? = some 0
    | none => ∃ ret, getFreeFdSlot s call = some (ret, s) ∧ ret < 0

/-- There is an object for the larger table. -/
def HasRoom (s : FdObject) (call : FdCall) : Prop := s.Full → s.tableSize < 4096 ∧ call.memory = true

instance (s : FdObject) (call : FdCall) : Decidable (HasRoom s call) := inferInstanceAs (Decidable (_ → _))

/-! ### Size classes -/

theorem kmallocBytes_class (size : Nat) :
    kmallocBytes size = (sizeClass size).bind fun i => mallocSizes[i]?.map Prod.fst := by
  rw [kmallocBytes, sizeClass, List.find?_eq_bind_findIdx?_getElem?, Option.map_bind]
  rfl

theorem kmallocBytes_small {size : Nat} (h : size ≤ 32768) :
    ∃ i e, kmallocBytes size = some e.1 ∧ SmallestClass size i e := by
  obtain ⟨i, e, hi, hclass⟩ := sizeClass_small h
  refine ⟨i, e, ?_, hclass⟩
  rw [kmallocBytes_class, hi, Option.bind_some, hclass.entry, Option.map_some]

theorem kmallocBytes_large {size : Nat} (h : 32768 < size) : kmallocBytes size = none := by
  rw [← Option.not_isSome_iff_eq_none, kmallocBytes_isSome_iff]
  omega

/-- The size that the table relies on is the size of the object that `kmalloc` returns. -/
theorem kmallocBytes_served {t : CacheTable} {s : KSys} (h : KmallocMeets t s) {size : Nat} {supply : List Nat}
    (hlegal : KLegal t s (.kmalloc size supply)) :
    (∃ (bytes : Nat) (hd : Handout) (st' : SlabState) (supply' : List Nat), kmallocBytes size = some bytes ∧
      kmalloc s.state supply size = some (some hd.ptr, st', supply') ∧
      (s.state.caches hd.cache).objectSize = bytes) ∨
    (kmallocBytes size = none ∧ kmalloc s.state supply size = some (none, s.state, supply)) := by
  by_cases hsize : size ≤ 32768
  · obtain ⟨i, e, st', supply', hd, hcall, -, hserved⟩ := h.small size hsize supply hlegal
    obtain ⟨j, e', hbytes, hclass⟩ := kmallocBytes_small hsize
    have hsame : e'.1 = e.1 := Nat.le_antisymm
      (hclass.smallest e (List.mem_of_getElem? hserved.class_eq.entry) hserved.class_eq.fits)
      (hserved.class_eq.smallest e' (List.mem_of_getElem? hclass.entry) hclass.fits)
    exact .inl ⟨e'.1, hd, st', supply', hbytes, hcall, by rw [hserved.size_eq, hsame]⟩
  · exact .inr ⟨kmallocBytes_large (by omega), h.large size (by omega) supply⟩

/-- Classes above 256 bytes are multiples of 256 bytes, so the class of a request that is 32 bytes
over such a multiple has room for a further 256. -/
theorem SmallestClass.room {k i : Nat} {e : Nat × Nat} (hk : 0 < k) (h : SmallestClass (256 * k + 32) i e) :
    256 * (k + 1) ≤ e.1 := by
  have hmultiple : ∀ e ∈ mallocSizes, 256 < e.1 → e.1 % 256 = 0 := by decide
  have hfits := h.fits
  have hmod := hmultiple e (List.mem_of_getElem? h.entry) (by omega)
  omega

/-! ### One call -/

section call
variable {s t : FdObject} {call : FdCall}

theorem freeSlotFrom_spec {words : List Nat} {left i : Nat} (h : i + left ≤ words.length) :
    (freeSlotFrom words left i = some none ∧ ∀ j, i ≤ j → j < i + left → words[j]? ≠ some 0) ∨
    ∃ j, freeSlotFrom words left i = some (some j) ∧ i ≤ j ∧ j < i + left ∧ words[j]? = some 0 ∧
      ∀ l, i ≤ l → l < j → words[l]? ≠ some 0 := by
  induction left generalizing i with
  | zero => exact .inl ⟨rfl, fun j hij hj => by omega⟩
  | succ left ih =>
      have hword : words[i]? = some words[i] := List.getElem?_eq_getElem (by omega)
      by_cases hfree : words[i] = 0
      · refine .inr ⟨i, ?_, Nat.le_refl _, by omega, by rw [hword, hfree], fun l hil hl => by omega⟩
        simp [freeSlotFrom, hword, hfree]
      · have hround : freeSlotFrom words (left + 1) i = freeSlotFrom words left (i + 1) := by
          simp [freeSlotFrom, hword, hfree]
        have hfirst : words[i]? ≠ some 0 := by
          rw [hword]
          exact fun heq => hfree (Option.some.inj heq)
        rw [hround]
        rcases @ih (i + 1) (by omega) with ⟨hnone, hall⟩ | ⟨j, hsome, hle, hlt, hzero, hall⟩
        · refine .inl ⟨hnone, fun j hij hj => ?_⟩
          rcases Nat.eq_or_lt_of_le hij with rfl | hlt
          · exact hfirst
          · exact hall j hlt (by omega)
        · refine .inr ⟨j, hsome, by omega, by omega, hzero, fun l hil hl => ?_⟩
          rcases Nat.eq_or_lt_of_le hil with rfl | hlt'
          · exact hfirst
          · exact hall l hlt' hl

/-- A table of `32 * k` entries that lie in their object. -/
def FdObject.Sound (s : FdObject) : Prop := ∃ k, 0 < k ∧ s.tableSize = 32 * k ∧ s.tableSize ≤ s.words.length

theorem createFdObject_sound : createFdObject.Sound := ⟨1, by decide, rfl, by decide⟩

theorem getFreeFdSlot_full (hs : s.tableSize ≤ s.words.length) (hfull : s.Full) :
    getFreeFdSlot s call = growFdObject s call := by
  rcases freeSlotFrom_spec (i := 0) (by omega : 0 + s.tableSize ≤ s.words.length) with
    ⟨hnone, -⟩ | ⟨j, -, -, hj, hzero, -⟩
  · rw [getFreeFdSlot, hnone, Option.bind_some]
  · exact absurd hzero (hfull j (by omega))

theorem getFreeFdSlot_free (call : FdCall) (hs : s.tableSize ≤ s.words.length) (hfree : ¬ s.Full) :
    ∃ j : Nat, getFreeFdSlot s call = some ((j : Int), s) ∧ j < s.tableSize ∧ s.words[j]? = some 0 ∧
      ∀ l < j, s.words[l]? ≠ some 0 := by
  rcases freeSlotFrom_spec (i := 0) (by omega : 0 + s.tableSize ≤ s.words.length) with
    ⟨-, hall⟩ | ⟨j, hsome, -, hj, hzero, hall⟩
  · exact absurd (fun j hj => hall j (Nat.zero_le j) (by omega)) hfree
  · refine ⟨j, ?_, by omega, hzero, fun l hl => hall l (Nat.zero_le l) hl⟩
    rw [getFreeFdSlot, hsome, Option.bind_some]

/-- The table in its new object. -/
def FdObject.grown (s : FdObject) (new : List Nat) : FdObject :=
  ⟨s.words.take s.tableSize ++ (List.replicate 32 0 ++ new.drop (s.tableSize + 32)), s.tableSize + 32⟩

theorem growFdObject_some {new : List Nat} (hs : s.tableSize ≤ s.words.length)
    (hnew : call.kmalloc (8 * s.tableSize + 32) = some new) (hroom : s.tableSize + 32 ≤ new.length) :
    growFdObject s call = some ((s.tableSize : Int), s.grown new) := by
  have hset : memsetWords new (s.tableSize + 32) =
      some (List.replicate (s.tableSize + 32) 0 ++ new.drop (s.tableSize + 32)) := if_pos hroom
  have hcopy : memcpyWords (List.replicate (s.tableSize + 32) 0 ++ new.drop (s.tableSize + 32)) s.words
      s.tableSize = some (s.words.take s.tableSize ++
        (List.replicate 32 0 ++ new.drop (s.tableSize + 32))) := by
    rw [memcpyWords, if_pos ⟨by simp; omega, hs⟩, List.drop_append_of_le_length (by simp), List.drop_replicate,
      Nat.add_sub_cancel_left]
  rw [growFdObject, hnew, Option.bind_some, hset, Option.bind_some, hcopy, Option.map_some]
  rfl

theorem grown_words {new : List Nat} (hs : s.tableSize ≤ s.words.length) (hroom : s.tableSize + 32 ≤ new.length) :
    (s.grown new).words.length = new.length ∧
      (∀ i < s.tableSize, (s.grown new).words[i]? = s.words[i]?) ∧
      ∀ i, s.tableSize ≤ i → i < s.tableSize + 32 → (s.grown new).words[i]? = some 0 := by
  have htake : (s.words.take s.tableSize).length = s.tableSize := List.length_take_of_le hs
  refine ⟨?_, fun i hi => ?_, fun i hle hlt => ?_⟩
  · simp only [FdObject.grown, List.length_append, htake, List.length_replicate, List.length_drop]
    omega
  · rw [FdObject.grown, List.getElem?_append_left (by omega), List.getElem?_take_of_lt hi]
  · rw [FdObject.grown, List.getElem?_append_right (by omega), htake,
      List.getElem?_append_left (by simp; omega), List.getElem?_replicate, if_pos (by omega)]

theorem FdCall.kmalloc_grow {k : Nat} (hk : 0 < k) (call : FdCall) :
    (32 * k < 4096 ∧ call.memory = true ∧ ∃ new i e, call.kmalloc (8 * (32 * k) + 32) = some new ∧
      SmallestClass (8 * (32 * k) + 32) i e ∧ new.length = e.1 / 8 ∧ 8 * (32 * k + 32) ≤ e.1) ∨
    (¬ (32 * k < 4096 ∧ call.memory = true) ∧ call.kmalloc (8 * (32 * k) + 32) = none) := by
  have hsize : 8 * (32 * k) + 32 = 256 * k + 32 := by omega
  cases hmemory : call.memory with
  | false => exact .inr ⟨by simp, by simp [FdCall.kmalloc, hmemory]⟩
  | true =>
      by_cases hlt : 32 * k < 4096
      · obtain ⟨i, e, hbytes, hclass⟩ := kmallocBytes_small (by omega : 8 * (32 * k) + 32 ≤ 32768)
        have hroom := SmallestClass.room hk (hsize ▸ hclass)
        refine .inl ⟨hlt, rfl, (List.range (e.1 / 8)).map call.stale, i, e, ?_, hclass, by simp, by omega⟩
        simp [FdCall.kmalloc, hmemory, hbytes]
      · refine .inr ⟨by omega, ?_⟩
        simp [FdCall.kmalloc, hmemory, kmallocBytes_large (by omega : 32768 < 8 * (32 * k) + 32)]

theorem fdStep_free (call : FdCall) (hs : s.tableSize ≤ s.words.length) (hfree : ¬ s.Full) :
    ∃ j, fdStep s call = some { s with words := s.words.set j call.file } ∧ j < s.tableSize ∧
      s.words[j]? = some 0 ∧ ∀ l < j, s.words[l]? ≠ some 0 := by
  obtain ⟨j, hslot, hj⟩ := getFreeFdSlot_free call hs hfree
  refine ⟨j, ?_, hj⟩
  rw [fdStep, hslot, Option.map_some]
  rfl

theorem fdStep_full {new : List Nat} (hs : s.tableSize ≤ s.words.length) (hfull : s.Full)
    (hnew : call.kmalloc (8 * s.tableSize + 32) = some new) (hroom : s.tableSize + 32 ≤ new.length) :
    fdStep s call = some { s.grown new with words := (s.grown new).words.set s.tableSize call.file } := by
  rw [fdStep, getFreeFdSlot_full hs hfull, growFdObject_some hs hnew hroom, Option.map_some]
  rfl

theorem FdObject.Sound.inside (hs : s.Sound) : s.tableSize ≤ s.words.length := by
  obtain ⟨-, -, -, hinside⟩ := hs
  exact hinside

theorem FdObject.Sound.set (hs : s.Sound) (i file : Nat) :
    FdObject.Sound { s with words := s.words.set i file } := by
  obtain ⟨k, hk, hsize, hinside⟩ := hs
  exact ⟨k, hk, hsize, by rw [List.length_set]; exact hinside⟩

theorem FdObject.Sound.grown {new : List Nat} (hs : s.Sound) (hfits : s.tableSize + 32 ≤ new.length) :
    (s.grown new).Sound := by
  obtain ⟨k, hk, hsize, hinside⟩ := hs
  obtain ⟨hlength, -, -⟩ := grown_words hinside hfits
  refine ⟨k + 1, Nat.succ_pos k, ?_, ?_⟩
  · change s.tableSize + 32 = 32 * (k + 1)
    omega
  · rw [hlength]
    exact hfits

theorem fdStep_meets_iff (hs : s.Sound) :
    ((∃ t, fdStep s call = some t ∧ GrowthMeets s call) ↔ HasRoom s call) ∧
      ∀ t, HasRoom s call → fdStep s call = some t → t.Sound := by
  have hsound := hs
  obtain ⟨k, hk, hsize, hinside⟩ := hs
  by_cases hfull : s.Full
  · have hslot : getFreeFdSlot s call = growFdObject s call := getFreeFdSlot_full hinside hfull
    rcases call.kmalloc_grow hk with ⟨hlt, hmemory, new, i, e, hnew, hclass, hlen, hroom⟩ | ⟨hno, hnone⟩
    · rw [← hsize] at hlt hnew hclass hroom
      have hfits : s.tableSize + 32 ≤ new.length := by omega
      have hgrow := growFdObject_some hinside hnew hfits
      obtain ⟨hlength, hold, hzero⟩ := grown_words hinside hfits
      have hstep := fdStep_full hinside hfull hnew hfits
      refine ⟨iff_of_true ⟨_, hstep, fun _ => ?_⟩ fun _ => ⟨hlt, hmemory⟩, ?_⟩
      · rw [hnew]
        exact ⟨⟨i, e, hclass, hlen, hroom⟩, s.grown new, hslot.trans hgrow, rfl, hlength, hold, hzero⟩
      · intro t _ ht
        rw [hstep] at ht
        obtain rfl := Option.some.inj ht
        exact (hsound.grown hfits).set _ _
    · rw [← hsize] at hno hnone
      have hfault : fdStep s call = none := by
        rw [fdStep, hslot, growFdObject, hnone]
        rfl
      refine ⟨iff_of_false ?_ fun hroom => hno (hroom hfull), ?_⟩
      · rintro ⟨t, ht, -⟩
        rw [hfault] at ht
        cases ht
      · intro t _ ht
        rw [hfault] at ht
        cases ht
  · obtain ⟨j, hstep, -⟩ := fdStep_free call hinside hfull
    refine ⟨iff_of_true ⟨_, hstep, fun h => absurd h hfull⟩ fun h => absurd h hfull, ?_⟩
    intro t _ ht
    rw [hstep] at ht
    obtain rfl := Option.some.inj ht
    exact hsound.set _ _

end call

/-! ### The table of the system calls -/

/-- The slots that the object holds. -/
def FdObject.slots (s : FdObject) : FdTable :=
  ⟨(s.words.take s.tableSize).map fun word => if word = 0 then none else some word⟩

section slots
variable {s : FdObject}

theorem slots_getElem? {i : Nat} (hi : i < s.tableSize) :
    s.slots.fd[i]? = s.words[i]?.map fun word => if word = 0 then none else some word := by
  rw [FdObject.slots, List.getElem?_map, List.getElem?_take_of_lt hi]

theorem slots_tableSize (hs : s.tableSize ≤ s.words.length) : s.slots.tableSize = s.tableSize := by
  rw [FdTable.tableSize, FdObject.slots, List.length_map, List.length_take_of_le hs]

theorem slots_none_iff {i : Nat} (hi : i < s.tableSize) : s.slots.fd[i]? = some none ↔ s.words[i]? = some 0 := by
  rw [slots_getElem? hi]
  cases s.words[i]? with
  | none => simp
  | some word => by_cases hword : word = 0 <;> simp [hword]

theorem slots_find_free {j : Nat} (hj : j < s.tableSize) (hzero : s.words[j]? = some 0)
    (hbefore : ∀ l < j, s.words[l]? ≠ some 0) : s.slots.fd.findIdx? Option.isNone = some j := by
  have hfree := (slots_none_iff hj).mpr hzero
  obtain ⟨hlt, hget⟩ := List.getElem?_eq_some_iff.mp hfree
  refine List.findIdx?_eq_some_iff_getElem.mpr ⟨hlt, by rw [hget]; rfl, fun l hl => ?_⟩
  intro hnone
  apply hbefore l hl
  apply (slots_none_iff (hl.trans hj)).mp
  rw [List.getElem?_eq_getElem (hl.trans hlt), Option.isNone_iff_eq_none.mp hnone]

theorem slots_find_full (hfull : s.Full) : s.slots.fd.findIdx? Option.isNone = none := by
  refine List.findIdx?_eq_none_iff.mpr fun slot hmem => ?_
  obtain ⟨i, hi⟩ := List.mem_iff_getElem?.mp hmem
  have hlt : i < s.tableSize := by
    have hlen : i < s.slots.fd.length := (List.getElem?_eq_some_iff.mp hi).1
    rw [FdObject.slots, List.length_map, List.length_take] at hlen
    omega
  cases slot with
  | some file => rfl
  | none => exact absurd ((slots_none_iff hlt).mp hi) (hfull i hlt)

theorem grown_slots {new : List Nat} (hs : s.tableSize ≤ s.words.length) :
    (s.grown new).slots = ⟨s.slots.fd ++ List.replicate 32 none⟩ := by
  have htake : (s.words.take s.tableSize).length = s.tableSize := List.length_take_of_le hs
  have hwords : (s.grown new).words.take (s.tableSize + 32) = s.words.take s.tableSize ++ List.replicate 32 0 := by
    rw [FdObject.grown, ← List.append_assoc, List.take_append_of_le_length (by simp [htake]),
      List.take_of_length_le (by simp [htake])]
  change FdTable.mk (((s.grown new).words.take (s.tableSize + 32)).map _) = _
  rw [hwords, List.map_append, List.map_replicate, if_pos rfl]
  rfl

/-- The system calls' model of the function is what the words of the object show: both return the
same slot and the same table, or both fault. -/
theorem getFreeFdSlot_slots (hs : s.Sound) (call : FdCall) :
    (∃ (slot : Nat) (t : FdObject), getFreeFdSlot s call = some ((slot : Int), t) ∧
      taskFdTableGetFreeFdSlot s.slots call.memory = .ok (slot, t.slots)) ∨
    (getFreeFdSlot s call = none ∧ taskFdTableGetFreeFdSlot s.slots call.memory = .error .newTable) := by
  obtain ⟨k, hk, hsize, hinside⟩ := hs
  by_cases hfull : s.Full
  · rw [getFreeFdSlot_full hinside hfull, taskFdTableGetFreeFdSlot, slots_find_full hfull]
    dsimp only
    rw [growFdTable, slots_tableSize hinside]
    rcases call.kmalloc_grow hk with ⟨-, hmemory, new, i, e, hnew, hclass, hlen, hroom⟩ | ⟨-, hnone⟩
    · rw [← hsize] at hnew hclass hroom
      obtain ⟨j, e', hbytes, hclass'⟩ := kmallocBytes_small (by
        have := hclass.fits
        have hmax : ∀ e ∈ mallocSizes, e.1 ≤ 32768 := by decide
        have := hmax e (List.mem_of_getElem? hclass.entry)
        omega : 8 * s.tableSize + 32 ≤ 32768)
      have hlarge : e.1 ≤ e'.1 := hclass.smallest e' (List.mem_of_getElem? hclass'.entry) hclass'.fits
      refine .inl ⟨s.tableSize, s.grown new, growFdObject_some hinside hnew (by omega), ?_⟩
      rw [hmemory, if_pos rfl, hbytes, grown_slots hinside]
      exact if_pos (by omega)
    · rw [← hsize] at hnone
      refine .inr ⟨by rw [growFdObject, hnone, Option.bind_none], ?_⟩
      rw [FdCall.kmalloc] at hnone
      cases hmemory : call.memory with
      | false => rfl
      | true =>
          rw [hmemory, if_pos rfl, Option.map_eq_none_iff] at hnone
          rw [if_pos rfl, hnone]
  · obtain ⟨j, hslot, hj, hzero, hbefore⟩ := getFreeFdSlot_free call hinside hfull
    refine .inl ⟨j, s, hslot, ?_⟩
    rw [taskFdTableGetFreeFdSlot, slots_find_free hj hzero hbefore]

end slots

/-- Along a run of calls from the table of `create_task` the table is never overrun exactly when
every call on a full table finds an object, that is when the table has less than 4096 entries. -/
theorem fdTable_growth_iff (calls : List FdCall) :
    Along fdStep (fun s call _ => GrowthMeets s call) createFdObject calls ↔
      Guarded fdStep HasRoom createFdObject calls := by
  have hfair : Guarded fdStep (fun _ _ => True) createFdObject calls :=
    guarded_of_forall (fun _ _ _ => trivial) _
  exact along_iff_guarded FdObject.Sound (fun s call hs _ => fdStep_meets_iff hs) createFdObject_sound hfair

/-! ### A table of 4096 entries -/

/-- The first `k` slots are taken and the others are free. -/
structure FilledTo (k : Nat) (s : FdObject) : Prop where
  sound : s.Sound
  least : s.tableSize = 32 ∨ s.tableSize < k + 32
  taken : k ≤ s.tableSize ∧ ∀ i < k, s.words[i]? ≠ some 0
  free : ∀ i, k ≤ i → i < s.tableSize → s.words[i]? = some 0

theorem filledTo_store {k file : Nat} {s : FdObject} (hs : s.Sound) (hlt : k < s.tableSize)
    (hleast : s.tableSize = 32 ∨ s.tableSize < k + 1 + 32) (htaken : ∀ i < k, s.words[i]? ≠ some 0)
    (hfree : ∀ i, k ≤ i → i < s.tableSize → s.words[i]? = some 0) (hfile : file ≠ 0) :
    FilledTo (k + 1) { s with words := s.words.set k file } := by
  have hinside := hs.inside
  refine ⟨hs.set k file, hleast, ⟨hlt, ?_⟩, ?_⟩
  · intro i hi
    rcases Nat.lt_succ_iff_lt_or_eq.mp hi with hlt' | rfl
    · rw [List.getElem?_set_ne (by omega)]
      exact htaken i hlt'
    · rw [List.getElem?_set_self (by omega)]
      exact fun heq => hfile (Option.some.inj heq)
  · intro i hi hlt'
    rw [List.getElem?_set_ne (by omega)]
    exact hfree i (by omega) hlt'

theorem FilledTo.step {k : Nat} {s : FdObject} (h : FilledTo k s) (hk : k < 4096) {call : FdCall}
    (hmemory : call.memory = true) : ∃ t, fdStep s call = some t ∧ FilledTo (k + 1) t := by
  obtain ⟨m, hm, hsize, hinside⟩ := h.sound
  obtain ⟨hle, htaken⟩ := h.taken
  rcases Nat.eq_or_lt_of_le hle with rfl | hlt
  · -- the table is full, and 32 free slots are added
    rcases call.kmalloc_grow hm with ⟨-, -, new, i, e, hnew, -, hlen, hroom⟩ | ⟨hno, -⟩
    · rw [← hsize] at hnew hroom
      have hfits : s.tableSize + 32 ≤ new.length := by omega
      obtain ⟨-, hold, hzero⟩ := grown_words hinside hfits
      have hlarger : (s.grown new).tableSize = s.tableSize + 32 := rfl
      refine ⟨_, fdStep_full hinside htaken hnew hfits, ?_⟩
      apply filledTo_store (h.sound.grown hfits) (by omega) (.inr (by omega)) ?_ ?_ call.opened
      · intro i hi
        rw [hold i hi]
        exact htaken i hi
      · exact hzero
    · exact absurd ⟨by omega, hmemory⟩ hno
  · -- slot `k` is the first free one
    have hfree : ¬ s.Full := fun hfull => hfull k hlt (h.free k (Nat.le_refl k) hlt)
    obtain ⟨j, hstep, hj, hzero, hbefore⟩ := fdStep_free call hinside hfree
    have hjk : j = k := by
      rcases Nat.lt_trichotomy j k with hlt' | heq | hgt
      · exact absurd hzero (htaken j hlt')
      · exact heq
      · exact absurd (h.free k (Nat.le_refl k) hlt) (hbefore k hgt)
    subst hjk
    have hleast := h.least
    exact ⟨_, hstep, filledTo_store h.sound hj (by omega) htaken h.free call.opened⟩

theorem createFdObject_filledTo : FilledTo 0 createFdObject := by
  refine ⟨createFdObject_sound, .inl rfl, ⟨Nat.zero_le _, fun i hi => absurd hi (Nat.not_lt_zero i)⟩, ?_⟩
  intro i _ hi
  rw [createFdObject, List.getElem?_replicate]
  exact if_pos hi

theorem run_filledTo {call : FdCall} (hmemory : call.memory = true) {k : Nat} (hk : k ≤ 4096) :
    ∃ s, run fdStep createFdObject (List.replicate k call) = some s ∧ FilledTo k s := by
  induction k with
  | zero => exact ⟨createFdObject, rfl, createFdObject_filledTo⟩
  | succ k ih =>
      obtain ⟨s, hrun, hfilled⟩ := ih (by omega)
      obtain ⟨t, hstep, hfilled'⟩ := hfilled.step (by omega) hmemory
      refine ⟨t, ?_, hfilled'⟩
      rw [List.replicate_succ', run_append, hrun, Option.bind_some]
      simp only [run, hstep, Option.bind_some]

/-- A file is opened, and there is memory. -/
def openFile : FdCall := ⟨0x1000, by simp, true, fun _ => 0⟩

/-- After 4096 files there is no size class for the larger table, and `memset` runs through a
null pointer. -/
theorem fdTable_growth_4097_files :
    (∃ s, run fdStep createFdObject (List.replicate 4096 openFile) = some s ∧ s.tableSize = 4096 ∧
      openFile.kmalloc (8 * s.tableSize + 32) = none ∧ getFreeFdSlot s openFile = none) ∧
    ¬ Along fdStep (fun s call _ => GrowthMeets s call) createFdObject (List.replicate 4097 openFile) := by
  obtain ⟨s, hrun, hfilled⟩ := @run_filledTo openFile rfl 4096 (Nat.le_refl _)
  obtain ⟨m, hm, hsize, hinside⟩ := hfilled.sound
  obtain ⟨hle, htaken⟩ := hfilled.taken
  have hleast := hfilled.least
  have htable : s.tableSize = 4096 := by omega
  have hnone : openFile.kmalloc (8 * s.tableSize + 32) = none := by
    rw [FdCall.kmalloc, kmallocBytes_large (by omega)]
    rfl
  have hfault : getFreeFdSlot s openFile = none := by
    rw [getFreeFdSlot_full hinside fun i hi => htaken i (by omega), growFdObject, hnone, Option.bind_none]
  refine ⟨⟨s, hrun, htable, hnone, hfault⟩, ?_⟩
  intro halong
  have hdefined := halong.run_isSome
  rw [List.replicate_succ', run_append, hrun, Option.bind_some, run, fdStep, hfault] at hdefined
  simp at hdefined

end Lucix.Sys
