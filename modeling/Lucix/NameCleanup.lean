import Lucix.Tar
import Mathlib.Data.List.DropRight

/-! The bytes that `sanitize_name` reads and writes: for which names they are those of the name, and
what is left of it then. -/
namespace Lucix.Initramfs
open Ramfs

/-! ### The accesses -/

/-- The function `strlen`, whose `count` is an `int`, with the positions that it reads; `none` also
where the count overflows. -/
def strlenRun (disk : Ramdisk) : Nat → Nat → Nat → Option (Nat × List Nat)
  | 0, _, _ => none
  | fuel + 1, s, count => do
      let b ← disk.read s
      if b ≠ 0 then
        if count + 1 < 2 ^ 31 then do
          let (len, accessed) ← strlenRun disk fuel (s + 1) (count + 1)
          some (len, s :: accessed)
        else none
      else some (count, [s])

/-- The first loop of `sanitize_name`. -/
def skipDotsRun (disk : Ramdisk) : Nat → Nat → Option (Nat × List Nat)
  | 0, _ => none
  | fuel + 1, name => do
      let b ← disk.read name
      if b = dot.1 then do
        let (start, accessed) ← skipDotsRun disk fuel (name + 1)
        some (start, name :: accessed)
      else some (name, [name])

/-- The second loop of `sanitize_name`. Its condition and its body call `strlen` each for itself. -/
def stripSlashesRun : Nat → Ramdisk → Nat → Option (Ramdisk × List Nat)
  | 0, _, _ => none
  | fuel + 1, disk, name => do
      let (len, counted) ← strlenRun disk (disk.size + 1) name 0
      if name + len = 0 then none
      else do
        let b ← disk.read (name + len - 1)
        if b = slash.1 then do
          let (len', counted') ← strlenRun disk (disk.size + 1) name 0
          let disk ← disk.write (name + len' - 1) 0
          let (disk, accessed) ← stripSlashesRun fuel disk name
          some (disk, counted ++ (name + len - 1) :: (counted' ++ (name + len' - 1) :: accessed))
        else some (disk, counted ++ [name + len - 1])

/-- The function `sanitize_name` with the positions that it reads or writes. -/
def sanitizeNameRun (disk : Ramdisk) (name : Nat) : Option (Nat × Ramdisk × List Nat) := do
  let (name, skipped) ← skipDotsRun disk (disk.size + 1) name
  let (disk, stripped) ← stripSlashesRun (disk.size + 2) disk name
  some (name, disk, skipped ++ stripped)

/-! The same results without the positions. -/

section refines
variable {disk disk' : Ramdisk} {name len count fuel start : Nat} {accessed : List Nat}

theorem strlen_of_run (h : strlenRun disk fuel name count = some (len, accessed)) :
    ∃ s, Spells disk name s ∧ len = count + s.length := by
  induction fuel generalizing name len count accessed with
  | zero => contradiction
  | succ fuel ih =>
      obtain ⟨b, hread, h⟩ := Option.bind_eq_some_iff.mp h
      obtain ⟨hin, hbyte⟩ := Option.ite_none_right_eq_some.mp hread
      split_ifs at h with hb hfits
      · obtain ⟨⟨len', counted⟩, hrest, h⟩ := Option.bind_eq_some_iff.mp h
        obtain ⟨s, hspells, hlen⟩ := ih hrest
        simp only [Option.some.injEq, Prod.mk.injEq] at h
        refine ⟨⟨b, hb⟩ :: s, ⟨?_, ?_⟩, ?_⟩
        · have hinside := hspells.inside
          rw [List.length_cons]
          omega
        · show disk.bytes name :: disk.slice (name + 1) (s.length + 1) = b :: (toBytes s ++ [0])
          rw [Option.some.inj hbyte, hspells.slice_eq]
        · rw [List.length_cons]
          omega
      · rw [not_not] at hb
        simp only [Option.some.injEq, Prod.mk.injEq] at h
        refine ⟨[], ⟨hin, ?_⟩, h.1.symm⟩
        show [disk.bytes name] = [0]
        rw [Option.some.inj hbyte, hb]

theorem skipDots_of_run (h : skipDotsRun disk fuel name = some (start, accessed)) :
    skipDots disk fuel name = some start := by
  induction fuel generalizing name start accessed with
  | zero => contradiction
  | succ fuel ih =>
      obtain ⟨b, hread, h⟩ := Option.bind_eq_some_iff.mp h
      rw [skipDots, hread, Option.bind_eq_bind, Option.bind_some]
      split_ifs at h ⊢ with hb
      · obtain ⟨⟨start', skipped⟩, hrest, h⟩ := Option.bind_eq_some_iff.mp h
        simp only [Option.some.injEq, Prod.mk.injEq] at h
        rw [ih hrest, h.1]
      · simp only [Option.some.injEq, Prod.mk.injEq] at h
        rw [h.1]

theorem stripSlashes_of_run (h : stripSlashesRun fuel disk name = some (disk', accessed)) :
    stripSlashes fuel disk name = some disk' := by
  induction fuel generalizing disk disk' accessed with
  | zero => contradiction
  | succ fuel ih =>
      obtain ⟨⟨len, counted⟩, hlen, h⟩ := Option.bind_eq_some_iff.mp h
      obtain ⟨s, hspells, hcount⟩ := strlen_of_run hlen
      have hstrlen : disk.strlen name = some len := by
        rw [Ramdisk.strlen, hspells.string, hcount, Nat.zero_add]
        rfl
      rw [stripSlashes, hstrlen]
      simp only [Option.bind_eq_bind, Option.bind_some] at h ⊢
      split_ifs at h ⊢ with hzero
      obtain ⟨b, hread, h⟩ := Option.bind_eq_some_iff.mp h
      rw [hread, Option.bind_some]
      split_ifs at h ⊢ with hb
      · rw [hlen, Option.bind_some] at h
        obtain ⟨cut, hwrite, h⟩ := Option.bind_eq_some_iff.mp h
        obtain ⟨⟨last, counted'⟩, hrest, h⟩ := Option.bind_eq_some_iff.mp h
        simp only [Option.some.injEq, Prod.mk.injEq] at h
        rw [hwrite, Option.bind_some, ih hrest, h.1]
      · simp only [Option.some.injEq, Prod.mk.injEq] at h
        rw [h.1]

theorem sanitizeName_of_run (h : sanitizeNameRun disk name = some (start, disk', accessed)) :
    sanitizeName disk name = some (start, disk') := by
  obtain ⟨⟨p, skipped⟩, hskip, h⟩ := Option.bind_eq_some_iff.mp h
  obtain ⟨⟨last, stripped⟩, hstrip, h⟩ := Option.bind_eq_some_iff.mp h
  simp only [Option.some.injEq, Prod.mk.injEq] at h
  obtain ⟨rfl, rfl, -⟩ := h
  rw [sanitizeName, skipDots_of_run hskip, Option.bind_eq_bind, Option.bind_some, stripSlashes_of_run hstrip]
  rfl

end refines

/-! ### What is left of a name -/

def undotted (s : CString) : CString := s.dropWhile fun c => decide (c = dot)

def leadingDots (s : CString) : Nat := (s.takeWhile fun c => decide (c = dot)).length

def unslashed (s : CString) : CString := s.rdropWhile fun c => decide (c = slash)

/-- The name is cleaned up: only bytes of the name are touched, and of those only the slashes at
its end are changed. -/
structure CleansUp (disk : Ramdisk) (i : Nat) (s : CString) (start : Nat) (disk' : Ramdisk) (accessed : List Nat) :
    Prop where
  inside : ∀ k ∈ accessed, i ≤ k ∧ k ≤ i + s.length
  start_eq : start = i + leadingDots s
  name_eq : disk'.string start = some (unslashed (undotted s))
  size_eq : disk'.size = disk.size
  bytes_eq : ∀ k, disk'.bytes k =
    if start + (unslashed (undotted s)).length ≤ k ∧ k < i + s.length then 0 else disk.bytes k

/-! ### The loops -/

section runs
variable {disk : Ramdisk} {i fuel count : Nat} {s : CString}

theorem Spells.read_head {b : { b : UInt8 // b ≠ 0 }} (h : Spells disk i (b :: s)) : disk.read i = some b.1 := by
  have hinside := h.inside
  have hbyte : disk.bytes (i + 0) = b.1 := h.byte rfl
  rw [Ramdisk.read, if_pos (by omega)]
  exact congrArg some hbyte

theorem Spells.read_end (h : Spells disk i []) : disk.read i = some 0 := by
  have hbyte : disk.bytes i = 0 := List.head_eq_of_cons_eq h.slice_eq
  have hinside : i < disk.size := h.inside
  rw [Ramdisk.read, if_pos hinside, hbyte]

theorem strlenRun_eq (h : Spells disk i s) (hfuel : s.length < fuel) (hcount : count < 2 ^ 31) :
    strlenRun disk fuel i count =
      if count + s.length < 2 ^ 31 then some (count + s.length, List.range' i (s.length + 1)) else none := by
  induction s generalizing i fuel count with
  | nil =>
      obtain ⟨fuel, rfl⟩ := Nat.exists_eq_add_of_lt hfuel
      have hfits : count + ([] : CString).length < 2 ^ 31 := hcount
      rw [strlenRun, h.read_end, if_pos hfits]
      rfl
  | cons b s ih =>
      obtain ⟨fuel, rfl⟩ : ∃ k, fuel = k + 1 := ⟨fuel - 1, by omega⟩
      rw [List.length_cons] at hfuel ⊢
      rw [strlenRun, h.read_head]
      simp only [Option.bind_eq_bind, Option.bind_some, if_pos b.2]
      by_cases hfits : count + 1 < 2 ^ 31
      · rw [if_pos hfits, ih h.next (by omega) hfits, Nat.add_right_comm count 1, Nat.add_assoc count]
        split_ifs with hlen
        · rfl
        · rfl
      · rw [if_neg hfits, if_neg (by omega)]

theorem skipDotsRun_eq (h : Spells disk i s) (hfuel : s.length < fuel) :
    skipDotsRun disk fuel i = some (i + leadingDots s, List.range' i (leadingDots s + 1)) ∧
      Spells disk (i + leadingDots s) (undotted s) := by
  induction s generalizing i fuel with
  | nil =>
      obtain ⟨fuel, rfl⟩ := Nat.exists_eq_add_of_lt hfuel
      rw [skipDotsRun, h.read_end]
      exact ⟨rfl, h⟩
  | cons b s ih =>
      obtain ⟨fuel, rfl⟩ : ∃ k, fuel = k + 1 := ⟨fuel - 1, by omega⟩
      rw [List.length_cons] at hfuel
      rw [skipDotsRun, h.read_head]
      simp only [Option.bind_eq_bind, Option.bind_some]
      by_cases hb : b = dot
      · obtain ⟨hrun, hspells⟩ := ih h.next (by omega : s.length < fuel)
        have hdots : leadingDots (b :: s) = leadingDots s + 1 := by
          simp [leadingDots, hb]
        have hrest : undotted (b :: s) = undotted s := by
          simp [undotted, hb]
        have hstart : i + 1 + leadingDots s = i + (leadingDots s + 1) := by omega
        rw [if_pos (congrArg Subtype.val hb), hrun, hdots, hrest, ← hstart]
        exact ⟨rfl, hspells⟩
      · have hdots : leadingDots (b :: s) = 0 := by
          simp [leadingDots, hb]
        have hrest : undotted (b :: s) = b :: s := by
          simp [undotted, hb]
        have hne : b.1 ≠ dot.1 := fun heq => hb (Subtype.ext heq)
        rw [if_neg hne, hdots, hrest]
        exact ⟨rfl, h⟩

theorem strlenRun_spells (h : Spells disk i s) (hlen : s.length < 2 ^ 31) :
    strlenRun disk (disk.size + 1) i 0 = some (s.length, List.range' i (s.length + 1)) := by
  have hinside := h.inside
  rw [strlenRun_eq h (by omega) (by norm_num), Nat.zero_add, if_pos hlen]

theorem stripSlashesRun_stop {b : { b : UInt8 // b ≠ 0 }} (h : Spells disk i (s ++ [b])) (hb : b ≠ slash)
    (hlen : (s ++ [b]).length < 2 ^ 31) : stripSlashesRun (fuel + 1) disk i =
      some (disk, List.range' i ((s ++ [b]).length + 1) ++ [i + s.length]) := by
  have hlast : i + (s ++ [b]).length - 1 = i + s.length := by simp
  have hne : b.1 ≠ slash.1 := fun heq => hb (Subtype.ext heq)
  rw [stripSlashesRun, strlenRun_spells h hlen]
  simp only [Option.bind_eq_bind, Option.bind_some, hlast, h.read_last, if_neg hne]
  rw [if_neg (by simp)]

/-- A slash at the end is overwritten, and the loop goes on with the shorter name. -/
theorem stripSlashesRun_slash (fuel : Nat) (h : Spells disk i (s ++ [slash]))
    (hlen : (s ++ [slash]).length < 2 ^ 31) :
    ∃ disk', Spells disk' i s ∧ disk'.size = disk.size ∧
      disk'.bytes = Function.update disk.bytes (i + s.length) 0 ∧
      stripSlashesRun (fuel + 1) disk i = (stripSlashesRun fuel disk' i).map fun r =>
        (r.1, List.range' i ((s ++ [slash]).length + 1) ++ (i + s.length) ::
          (List.range' i ((s ++ [slash]).length + 1) ++ (i + s.length) :: r.2)) := by
  have hlast : i + (s ++ [slash]).length - 1 = i + s.length := by simp
  obtain ⟨disk', hwrite, hspells, hsize, hbytes⟩ := h.cut
  refine ⟨disk', hspells, hsize, hbytes, ?_⟩
  rw [stripSlashesRun, strlenRun_spells h hlen]
  simp only [Option.bind_eq_bind, Option.bind_some, hlast, h.read_last, if_true, hwrite]
  rw [if_neg (by simp)]
  cases stripSlashesRun fuel disk' i with
  | none => rfl
  | some r => rfl

theorem stripSlashesRun_empty (h : Spells disk i []) (hi : 0 < i) (hbefore : disk.bytes (i - 1) ≠ slash.1) :
    stripSlashesRun (fuel + 1) disk i = some (disk, [i, i - 1]) := by
  have hinside : i < disk.size := h.inside
  have hread : disk.read (i - 1) = some (disk.bytes (i - 1)) := by rw [Ramdisk.read, if_pos (by omega)]
  rw [stripSlashesRun, strlenRun_spells h (by simp)]
  simp only [List.length_nil, Nat.add_zero, Option.bind_eq_bind, Option.bind_some, hread, if_neg hbefore]
  rw [if_neg (by omega)]
  rfl

theorem stripSlashesRun_before {r : Ramdisk × List Nat} (h : Spells disk i [])
    (hrun : stripSlashesRun fuel disk i = some r) : 0 < i ∧ i - 1 ∈ r.2 := by
  cases fuel with
  | zero => contradiction
  | succ fuel =>
      rw [stripSlashesRun, strlenRun_spells h (by simp)] at hrun
      simp only [List.length_nil, Nat.add_zero, Option.bind_eq_bind, Option.bind_some] at hrun
      split_ifs at hrun with hi
      obtain ⟨b, -, hrun⟩ := Option.bind_eq_some_iff.mp hrun
      refine ⟨by omega, ?_⟩
      split_ifs at hrun
      · obtain ⟨disk', -, hrun⟩ := Option.bind_eq_some_iff.mp hrun
        obtain ⟨r', -, hrun⟩ := Option.bind_eq_some_iff.mp hrun
        rw [← Option.some.inj hrun]
        simp
      · rw [← Option.some.inj hrun]
        simp

end runs

/-! ### The slashes at the end -/

/-- From `start` on the name is without the slashes at its end, and nothing before `lo` has been
touched. -/
structure Stripped (lo : Nat) (disk : Ramdisk) (start : Nat) (t : CString) (r : Ramdisk × List Nat) : Prop where
  inside : ∀ k ∈ r.2, lo ≤ k ∧ k ≤ start + t.length
  spells : Spells r.1 start (unslashed t)
  size_eq : r.1.size = disk.size
  bytes_eq : ∀ k, r.1.bytes k =
    if start + (unslashed t).length ≤ k ∧ k < start + t.length then 0 else disk.bytes k

section strip
variable {disk : Ramdisk} {lo start fuel : Nat} {t : CString}

theorem unslashed_slash (t : CString) : unslashed (t ++ [slash]) = unslashed t :=
  List.rdropWhile_concat_pos _ _ _ (decide_eq_true rfl)

theorem unslashed_stop (t : CString) {b : { b : UInt8 // b ≠ 0 }} (hb : b ≠ slash) :
    unslashed (t ++ [b]) = t ++ [b] := List.rdropWhile_concat_neg _ _ _ (by simpa using hb)

theorem unslashed_length_le (t : CString) : (unslashed t).length ≤ t.length :=
  (List.rdropWhile_prefix _ _).length_le

theorem mem_range'_inside {k n : Nat} (h : k ∈ List.range' start n) : start ≤ k ∧ k < start + n := by
  obtain ⟨j, hj, rfl⟩ := List.mem_range'.mp h
  omega

theorem Stripped.of_empty (h : Spells disk start []) (hlt : lo < start) :
    Stripped lo disk start [] (disk, [start, start - 1]) := by
  refine ⟨?_, h, rfl, ?_⟩
  · intro k hk
    simp only [List.mem_cons, List.not_mem_nil, or_false] at hk
    rcases hk with rfl | rfl
    · exact ⟨hlt.le, Nat.le_add_right _ _⟩
    · exact ⟨Nat.le_sub_one_of_lt hlt, (Nat.sub_le start 1).trans (Nat.le_add_right _ _)⟩
  · intro k
    rw [if_neg (by simp [unslashed])]

theorem Stripped.at_stop {b : { b : UInt8 // b ≠ 0 }} (h : Spells disk start (t ++ [b])) (hb : b ≠ slash)
    (hlo : lo ≤ start) : Stripped lo disk start (t ++ [b])
      (disk, List.range' start ((t ++ [b]).length + 1) ++ [start + t.length]) := by
  refine ⟨?_, ?_, rfl, ?_⟩
  · intro k hk
    rw [List.length_append, List.length_singleton] at hk ⊢
    rcases List.mem_append.mp hk with hk | hk
    · have hin := mem_range'_inside hk
      omega
    · have heq := List.mem_singleton.mp hk
      omega
  · rw [unslashed_stop t hb]
    exact h
  · intro k
    rw [unslashed_stop t hb, if_neg (by omega)]

theorem Stripped.after_slash {disk' : Ramdisk} {r : Ramdisk × List Nat} (h : Stripped lo disk' start t r)
    (hlo : lo ≤ start) (hsize : disk'.size = disk.size)
    (hbytes : disk'.bytes = Function.update disk.bytes (start + t.length) 0) :
    Stripped lo disk start (t ++ [slash]) (r.1, List.range' start ((t ++ [slash]).length + 1) ++
      (start + t.length) :: (List.range' start ((t ++ [slash]).length + 1) ++
        (start + t.length) :: r.2)) := by
  refine ⟨?_, ?_, ?_, ?_⟩
  · intro k hk
    rw [List.length_append, List.length_singleton] at hk ⊢
    simp only [List.mem_append, List.mem_cons] at hk
    -- twice the length and the last byte, then what the loop goes on with
    rcases hk with hk | rfl | hk | rfl | hk
    · have hin := mem_range'_inside hk
      omega
    · omega
    · have hin := mem_range'_inside hk
      omega
    · omega
    · have hin := h.inside k hk
      omega
  · rw [unslashed_slash]
    exact h.spells
  · exact h.size_eq.trans hsize
  · intro k
    have hle := unslashed_length_le t
    rw [h.bytes_eq, hbytes, unslashed_slash, Function.update_apply, List.length_append,
      List.length_singleton]
    split_ifs <;> first | rfl | omega

/-- The loop stays behind `lo` and strips the slashes where it finds something else to stop at: a
byte of the name, or one in front of it. -/
theorem stripSlashesRun_strips (h : Spells disk start t) (hlen : t.length < 2 ^ 31) (hlo : lo ≤ start)
    (hfuel : t.length < fuel)
    (hstop : (∃ c ∈ t, c ≠ slash) ∨ (lo < start ∧ disk.bytes (start - 1) ≠ slash.1)) :
    ∃ r, stripSlashesRun fuel disk start = some r ∧ Stripped lo disk start t r := by
  induction t using List.reverseRecOn generalizing disk fuel with
  | nil =>
      obtain ⟨fuel, rfl⟩ := Nat.exists_eq_add_of_lt hfuel
      obtain ⟨hlt, hbefore⟩ := hstop.resolve_left (by simp)
      exact ⟨_, stripSlashesRun_empty h (Nat.zero_lt_of_lt hlt) hbefore, .of_empty h hlt⟩
  | append_singleton t b ih =>
      obtain ⟨fuel, rfl⟩ : ∃ k, fuel = k + 1 := ⟨fuel - 1, by omega⟩
      rw [List.length_append, List.length_singleton] at hfuel
      by_cases hb : b = slash
      · subst hb
        obtain ⟨disk', hspells, hsize, hbytes, hrun⟩ := stripSlashesRun_slash fuel h hlen
        rw [List.length_append, List.length_singleton] at hlen
        have hstop' : (∃ c ∈ t, c ≠ slash) ∨ (lo < start ∧ disk'.bytes (start - 1) ≠ slash.1) := by
          rcases hstop with ⟨c, hc, hne⟩ | ⟨hlt, hbefore⟩
          · rcases List.mem_append.mp hc with hc | hc
            · exact .inl ⟨c, hc, hne⟩
            · exact absurd (List.mem_singleton.mp hc) hne
          · rw [hbytes, Function.update_of_ne (by omega)]
            exact .inr ⟨hlt, hbefore⟩
        obtain ⟨r, hrest, hstripped⟩ := ih hspells (by omega) (by omega : t.length < fuel) hstop'
        exact ⟨_, by rw [hrun, hrest, Option.map_some], hstripped.after_slash hlo hsize hbytes⟩
      · exact ⟨_, stripSlashesRun_stop h hb hlen, .at_stop h hb hlo⟩

/-- The loop strips all of a name that is made of slashes, and looks at what stands before it. -/
theorem stripSlashesRun_all_slashes {r : Ramdisk × List Nat} (h : Spells disk start t) (hlen : t.length < 2 ^ 31)
    (ht : ∀ c ∈ t, c = slash) (hrun : stripSlashesRun fuel disk start = some r) :
    0 < start ∧ start - 1 ∈ r.2 := by
  induction t using List.reverseRecOn generalizing disk fuel r with
  | nil => exact stripSlashesRun_before h hrun
  | append_singleton t b ih =>
      obtain rfl : b = slash := ht b (by simp)
      cases fuel with
      | zero => contradiction
      | succ fuel =>
          obtain ⟨disk', hspells, -, -, hstep⟩ := stripSlashesRun_slash fuel h hlen
          rw [List.length_append, List.length_singleton] at hlen
          rw [hstep] at hrun
          obtain ⟨r', hrest, rfl⟩ := Option.map_eq_some_iff.mp hrun
          obtain ⟨hpos, hmem⟩ := ih hspells (by omega) (fun c hc => ht c (List.mem_append_left _ hc)) hrest
          exact ⟨hpos, by simp [hmem]⟩

/-- The count of `strlen` overflows on a longer name. -/
theorem stripSlashesRun_overflow (h : Spells disk start t) (hlen : 2 ^ 31 ≤ t.length) :
    stripSlashesRun fuel disk start = none := by
  have hinside := h.inside
  cases fuel with
  | zero => rfl
  | succ fuel =>
      rw [stripSlashesRun, strlenRun_eq h (by omega) (by norm_num), if_neg (by omega)]
      rfl

end strip

/-! ### Clean-up -/

section cleanup
variable {disk : Ramdisk} {i : Nat} {s : CString}

theorem leadingDots_add_length (s : CString) : leadingDots s + (undotted s).length = s.length := by
  rw [leadingDots, undotted, ← List.length_append, List.takeWhile_append_dropWhile]

theorem undotted_eq_self (h : leadingDots s = 0) : undotted s = s := by
  have hsplit := List.takeWhile_append_dropWhile (p := fun c => decide (c = dot)) (l := s)
  rwa [List.length_eq_zero_iff.mp h, List.nil_append] at hsplit

/-- The byte before what is left is the last of the dots. -/
theorem Spells.dot_before (h : Spells disk i s) (hdots : 0 < leadingDots s) :
    disk.bytes (i + leadingDots s - 1) = dot.1 := by
  have hlt : leadingDots s - 1 < (s.takeWhile fun c => decide (c = dot)).length := Nat.sub_one_lt_of_lt hdots
  have hdot : (s.takeWhile fun c => decide (c = dot))[leadingDots s - 1] = dot := by
    have hmem := List.mem_takeWhile_imp (List.getElem_mem hlt)
    exact of_decide_eq_true hmem
  have hget : s[leadingDots s - 1]? = some dot := by
    rw [← hdot, (List.takeWhile_prefix _).getElem hlt]
    exact List.getElem?_eq_getElem _
  rw [Nat.add_sub_assoc hdots, h.byte hget]

/-- The slashes that a name consists of are not cleaned up: the loop needs another byte of the name to
stop at. -/
theorem not_cleansUp {start : Nat} {disk' : Ramdisk} {accessed : List Nat} (h : Spells disk i s)
    (hs : ∀ c ∈ s, c = slash) (hlen : (undotted s).length < 2 ^ 31)
    (hrun : sanitizeNameRun disk i = some (start, disk', accessed)) :
    ¬ CleansUp disk i s start disk' accessed := by
  intro hclean
  have hdots : leadingDots s = 0 := by
    cases s with
    | nil => rfl
    | cons b s =>
        obtain rfl : b = slash := hs b List.mem_cons_self
        rfl
  rw [undotted_eq_self hdots] at hlen
  obtain ⟨hskip, -⟩ := skipDotsRun_eq h (by have hinside := h.inside; omega : s.length < disk.size + 1)
  rw [sanitizeNameRun, hskip, hdots] at hrun
  simp only [Option.bind_eq_bind, Option.bind_some, Nat.add_zero] at hrun
  obtain ⟨r, hstrip, hrun⟩ := Option.bind_eq_some_iff.mp hrun
  obtain ⟨hpos, hmem⟩ := stripSlashesRun_all_slashes h hlen hs hstrip
  simp only [Option.some.injEq, Prod.mk.injEq] at hrun
  obtain ⟨-, -, rfl⟩ := hrun
  have hinside := hclean.inside (i - 1) (List.mem_append_right _ hmem)
  omega

theorem sanitizeNameRun_cleansUp (h : Spells disk i s) (hs : ∃ c ∈ s, c ≠ slash)
    (hlen : (undotted s).length < 2 ^ 31) :
    ∃ start disk' accessed, sanitizeNameRun disk i = some (start, disk', accessed) ∧
      CleansUp disk i s start disk' accessed := by
  have hinside := h.inside
  have htotal := leadingDots_add_length s
  obtain ⟨hskip, hspells⟩ := skipDotsRun_eq h (by omega : s.length < disk.size + 1)
  have hstop : (∃ c ∈ undotted s, c ≠ slash) ∨
      (i < i + leadingDots s ∧ disk.bytes (i + leadingDots s - 1) ≠ slash.1) := by
    rcases Nat.eq_zero_or_pos (leadingDots s) with hdots | hdots
    · rw [undotted_eq_self hdots]
      exact .inl hs
    · rw [h.dot_before hdots]
      exact .inr ⟨by omega, by decide⟩
  obtain ⟨⟨disk', accessed⟩, hstrip, hstripped⟩ :=
    stripSlashesRun_strips hspells hlen (Nat.le_add_right i _) (by omega : _ < disk.size + 2) hstop
  refine ⟨i + leadingDots s, disk', List.range' i (leadingDots s + 1) ++ accessed, ?_, ?_, rfl, ?_, ?_, ?_⟩
  · rw [sanitizeNameRun, hskip]
    simp only [Option.bind_eq_bind, Option.bind_some, hstrip]
  · intro k hk
    rcases List.mem_append.mp hk with hk | hk
    · have hin := mem_range'_inside hk
      omega
    · have hin := hstripped.inside k hk
      omega
  · exact hstripped.spells.string
  · exact hstripped.size_eq
  · intro k
    rw [hstripped.bytes_eq, Nat.add_assoc i _ (undotted s).length, htotal]

end cleanup

/-- The function cleans up exactly the names that hold another byte than a slash and, without the dots, have
a length that an `int` holds. -/
theorem sanitizeName_cleans_iff (disk : Ramdisk) (i : Nat) (s : CString) (h : Spells disk i s) :
    (∃ start disk' accessed, sanitizeNameRun disk i = some (start, disk', accessed) ∧
      CleansUp disk i s start disk' accessed) ↔
    (∃ c ∈ s, c ≠ slash) ∧ (undotted s).length < 2 ^ 31 := by
  constructor
  · rintro ⟨start, disk', accessed, hrun, hclean⟩
    have hlen : (undotted s).length < 2 ^ 31 := by
      by_contra hlong
      have hinside := h.inside
      obtain ⟨hskip, hspells⟩ := skipDotsRun_eq h (by omega : s.length < disk.size + 1)
      rw [sanitizeNameRun, hskip] at hrun
      simp only [Option.bind_eq_bind, Option.bind_some,
        stripSlashesRun_overflow hspells (Nat.le_of_not_lt hlong), Option.bind_none, reduceCtorEq] at hrun
    refine ⟨?_, hlen⟩
    by_contra hs
    push Not at hs
    exact not_cleansUp h hs hlen hrun hclean
  · rintro ⟨hs, hlen⟩
    exact sanitizeNameRun_cleansUp h hs hlen

/-- The name `./a/`. -/
def dottedDisk : Ramdisk where
  size := 5
  bytes k := [46, 47, 97, 47].getD k 0

/-- The name `/` behind data that end in a slash. -/
def slashDisk : Ramdisk where
  size := 1024
  bytes k := if k = 511 ∨ k = 512 then 47 else 0

theorem sanitizeName_cleans_dotted :
    ∃ start disk' accessed, sanitizeNameRun dottedDisk 0 = some (start, disk', accessed) ∧
      CleansUp dottedDisk 0 [dot, slash, ⟨97, by decide⟩, slash] start disk' accessed :=
  (sanitizeName_cleans_iff dottedDisk 0 [dot, slash, ⟨97, by decide⟩, slash] ⟨by decide, by decide⟩).mpr
    ⟨⟨dot, by decide, by decide⟩, by decide⟩

/-- The byte before the name is overwritten. -/
theorem sanitizeName_overwrites : Spells slashDisk 512 [slash] ∧ slashDisk.bytes 511 = slash.1 ∧
    (∃ disk' accessed, sanitizeNameRun slashDisk 512 = some (512, disk', accessed) ∧ disk'.bytes 511 = 0) ∧
    ¬ ∃ start disk' accessed, sanitizeNameRun slashDisk 512 = some (start, disk', accessed) ∧
      CleansUp slashDisk 512 [slash] start disk' accessed := by
  have hspells : Spells slashDisk 512 [slash] := ⟨by decide, by decide⟩
  have hrun : (sanitizeNameRun slashDisk 512).map (fun r => (r.1, r.2.1.bytes 511)) = some (512, 0) := by
    decide +kernel
  obtain ⟨⟨start, disk', accessed⟩, hrun, hresult⟩ := Option.map_eq_some_iff.mp hrun
  simp only [Prod.mk.injEq] at hresult
  obtain ⟨rfl, hbyte⟩ := hresult
  refine ⟨hspells, rfl, ⟨disk', accessed, hrun, hbyte⟩, ?_⟩
  rintro ⟨start', disk'', accessed', hrun', hclean⟩
  exact not_cleansUp hspells (by simp) (by decide) hrun' hclean

end Lucix.Initramfs
