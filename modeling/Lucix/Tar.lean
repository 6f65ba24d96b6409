import Lucix.Strtol
import Lucix.PathMake
import Mathlib.Data.List.TakeWhile

/-! Archives as the tar format lays them out, and what the string functions make of
a header. A name of exactly one hundred bytes has no terminator of its own, so the
kernel reads it together with the mode behind it, and the start of a name that stands
in the field `prefix` it does not read at all. -/
namespace Lucix.Initramfs
open Ramfs Positional

/-! ### The format -/

/-- A digit of an octal numeral. -/
def IsOctal (d : UInt8) : Prop := 48 ≤ d ∧ d ≤ 55

instance (d : UInt8) : Decidable (IsOctal d) := inferInstanceAs (Decidable (_ ∧ _))

def octalValue (ds : List UInt8) : Nat := ds.foldl (fun n d => n * 8 + (d.toNat - 48)) 0

structure Member where
  path : Path
  typeflag : UInt8
  data : List UInt8

/-- The blocks behind the header. -/
def Member.blocks (m : Member) : Nat := (m.data.length + 511) / 512

/-- The member is a directory other than the root, or a regular file. -/
def Member.unpacked (m : Member) : Bool :=
  decide (m.typeflag = dirtype ∧ m.path ≠ []) || decide (m.typeflag = regtype)

/-- The name of the member has the form `./a/b`, with a slash at its end only for a directory. -/
def Member.HasName (m : Member) (name : CString) : Prop :=
  (m.typeflag = dirtype ∧ name = dot :: (joinPath m.path ++ [slash])) ∨
    (m.path ≠ [] ∧ name = dot :: joinPath m.path)

/-- The bytes of a string. -/
def toBytes (s : CString) : List UInt8 := s.map Subtype.val

/-- The name that `prefix` and `name` spell together. -/
def fullName (start name : CString) : CString := if start = [] then name else start ++ slash :: name

/-- The string stands in a field of `n` bytes, the rest of which is zero. -/
def Field (disk : Ramdisk) (i n : Nat) (s : CString) : Prop :=
  s.length ≤ n ∧ disk.slice i n = toBytes s ++ List.replicate (n - s.length) 0

/-- The header of a member. The mode and the size are numerals with a terminator. -/
structure HeaderOf (disk : Ramdisk) (pos : Nat) (m : Member) : Prop where
  name : ∃ start name, m.HasName (fullName start name) ∧ Field disk pos 100 name ∧
    Field disk (pos + 345) 155 start
  mode : ∃ ds : List UInt8, ds ≠ [] ∧ ds.length < 8 ∧ (∀ d ∈ ds, IsOctal d ∨ d = 32) ∧
    disk.slice (pos + 100) (ds.length + 1) = ds ++ [0]
  size : ∃ ds : List UInt8, ds.length < 12 ∧ (∀ d ∈ ds, IsOctal d) ∧ octalValue ds = m.data.length ∧
    disk.slice (pos + 124) ds.length = ds ∧
    (disk.bytes (pos + 124 + ds.length) = 0 ∨ disk.bytes (pos + 124 + ds.length) = 32)
  typeflag : disk.bytes (pos + 156) = m.typeflag
  magic : disk.slice (pos + 257) 5 = tmagic

/-- The whole name stands in the field `name`, with a terminator. -/
structure NamedInFull (disk : Ramdisk) (pos : Nat) : Prop where
  terminated : disk.bytes (pos + 99) = 0
  unprefixed : disk.bytes (pos + 345) = 0

/-- From `pos` on the ramdisk holds these members and then zero blocks. -/
def Archive (disk : Ramdisk) : Nat → List Member → Prop
  | pos, [] => (∃ k, disk.size = pos + 512 * k) ∧ ∀ i, pos ≤ i → i < disk.size → disk.bytes i = 0
  | pos, m :: ms => HeaderOf disk pos m ∧ disk.slice (pos + 512) m.data.length = m.data ∧
      Archive disk (pos + 512 * (1 + m.blocks)) ms

/-- Names are plain, no path is there twice, and every directory stands before its contents. -/
structure Listed (ms : List Member) : Prop where
  plain : ∀ m ∈ ms, ∀ c ∈ m.path, Plain c
  nodup : (ms.map Member.path).Nodup
  parents : ∀ before m after, ms = before ++ m :: after → m.path.dropLast ≠ [] →
    ∃ d ∈ before, d.typeflag = dirtype ∧ d.path = m.path.dropLast

/-- The blocks of data. -/
def dataBlocks : Nat → List Member → List Nat
  | _, [] => []
  | pos, m :: ms => (List.range m.blocks).map (fun k => pos + 512 * (1 + k)) ++
      dataBlocks (pos + 512 * (1 + m.blocks)) ms

/-! ### Slices -/

section slices
variable {disk disk' : Ramdisk} {i n k pos : Nat}

@[simp] theorem slice_length (disk : Ramdisk) (i n : Nat) : (disk.slice i n).length = n := by
  induction n generalizing i with
  | zero => rfl
  | succ n ih => rw [Ramdisk.slice, List.length_cons, ih]

theorem slice_append (disk : Ramdisk) (i n k : Nat) :
    disk.slice i (n + k) = disk.slice i n ++ disk.slice (i + n) k := by
  induction n generalizing i with
  | zero => simp [Ramdisk.slice]
  | succ n ih =>
      rw [Nat.succ_add, Ramdisk.slice, Ramdisk.slice, ih, List.cons_append, Nat.succ_add_eq_add_succ]

theorem slice_getElem? (disk : Ramdisk) (i : Nat) (h : k < n) :
    (disk.slice i n)[k]? = some (disk.bytes (i + k)) := by
  induction n generalizing i k with
  | zero => omega
  | succ n ih =>
      cases k with
      | zero => rfl
      | succ k =>
          rw [Ramdisk.slice, List.getElem?_cons_succ, ih (i + 1) (by omega),
            Nat.succ_add_eq_add_succ]

theorem slice_congr (h : ∀ k, i ≤ k → k < i + n → disk'.bytes k = disk.bytes k) :
    disk'.slice i n = disk.slice i n := by
  apply List.ext_getElem?
  intro k
  by_cases hk : k < n
  · rw [slice_getElem? disk' i hk, slice_getElem? disk i hk, h (i + k) (by omega) (by omega)]
  · rw [List.getElem?_eq_none (by simp; omega), List.getElem?_eq_none (by simp; omega)]

theorem slice_zero (h : ∀ k < n, disk.bytes (i + k) = 0) : disk.slice i n = List.replicate n 0 := by
  apply List.ext_getElem?
  intro k
  by_cases hk : k < n
  · rw [slice_getElem? disk i hk, h k hk, List.getElem?_replicate, if_pos hk]
  · rw [List.getElem?_eq_none (by simp; omega), List.getElem?_eq_none (by simp; omega)]

theorem tail_eq_slice (h : i + n ≤ disk.size) : disk.tail i = disk.slice i n ++ disk.tail (i + n) := by
  rw [Ramdisk.tail, show disk.size - i = n + (disk.size - (i + n)) by omega, slice_append, Ramdisk.tail]

theorem toCString_append (s : CString) (rest : List UInt8) :
    toCString (toBytes s ++ 0 :: rest) = some s := by
  induction s with
  | nil => simp [toBytes, toCString]
  | cons b s ih =>
      show toCString (b.1 :: (toBytes s ++ 0 :: rest)) = _
      rw [toCString, dif_pos b.2, ih]
      rfl

/-- The string stands at the position with its terminator. -/
structure Spells (disk : Ramdisk) (i : Nat) (s : CString) : Prop where
  inside : i + s.length < disk.size
  slice_eq : disk.slice i (s.length + 1) = toBytes s ++ [0]

theorem Spells.string {s : CString} (h : Spells disk i s) : disk.string i = some s := by
  have hend : i + (s.length + 1) ≤ disk.size := h.inside
  rw [Ramdisk.string, tail_eq_slice hend, h.slice_eq, List.append_assoc]
  exact toCString_append s _

theorem Spells.byte {s : CString} (h : Spells disk i s) {b : { b : UInt8 // b ≠ 0 }}
    (hk : s[k]? = some b) : disk.bytes (i + k) = b.1 := by
  have hlt : k < s.length := (List.getElem?_eq_some_iff.mp hk).1
  have hslice := slice_getElem? disk i (Nat.lt_succ_of_lt hlt)
  rw [h.slice_eq, List.getElem?_append_left (by simpa [toBytes] using hlt), toBytes, List.getElem?_map,
    hk] at hslice
  exact (Option.some.inj hslice).symm

end slices

/-! ### Headers and changes -/

/-- The ramdisks are the same from `pos` on. -/
structure AgreesFrom (pos : Nat) (disk disk' : Ramdisk) : Prop where
  size_eq : disk'.size = disk.size
  bytes_eq : ∀ i, pos ≤ i → disk'.bytes i = disk.bytes i

/-- What `tar_valid_header` looks for. -/
def LooksLikeHeader (disk : Ramdisk) (pos : Nat) : Prop := disk.slice (pos + 257) 4 = tmagic.take 4

instance (disk : Ramdisk) (pos : Nat) : Decidable (LooksLikeHeader disk pos) :=
  inferInstanceAs (Decidable (_ = _))

section agrees
variable {disk disk' disk'' : Ramdisk} {i n pos : Nat} {m : Member}

theorem AgreesFrom.refl (pos : Nat) (disk : Ramdisk) : AgreesFrom pos disk disk := ⟨rfl, fun _ _ => rfl⟩

theorem AgreesFrom.trans (h : AgreesFrom pos disk disk') (h' : AgreesFrom pos disk' disk'') :
    AgreesFrom pos disk disk'' :=
  ⟨h'.size_eq.trans h.size_eq, fun i hi => (h'.bytes_eq i hi).trans (h.bytes_eq i hi)⟩

theorem AgreesFrom.mono {pos' : Nat} (h : AgreesFrom pos disk disk') (hle : pos ≤ pos') :
    AgreesFrom pos' disk disk' := ⟨h.size_eq, fun i hi => h.bytes_eq i (hle.trans hi)⟩

theorem AgreesFrom.slice_eq (h : AgreesFrom pos disk disk') (hi : pos ≤ i) :
    disk'.slice i n = disk.slice i n := slice_congr fun k hk _ => h.bytes_eq k (hi.trans hk)

theorem HeaderOf.of_agrees (h : HeaderOf disk pos m) (ha : AgreesFrom pos disk disk') :
    HeaderOf disk' pos m := by
  refine ⟨?_, ?_, ?_, ?_, ?_⟩
  · simp only [Field, ha.slice_eq (Nat.le_refl pos), ha.slice_eq (Nat.le_add_right pos 345)]
    exact h.name
  · simp only [ha.slice_eq (Nat.le_add_right pos 100)]
    exact h.mode
  · obtain ⟨ds, hlen, hds, hvalue, hslice, hterm⟩ := h.size
    refine ⟨ds, hlen, hds, hvalue, ?_, ?_⟩
    · rw [ha.slice_eq (Nat.le_add_right pos 124), hslice]
    · rw [ha.bytes_eq _ (by omega)]
      exact hterm
  · rw [ha.bytes_eq _ (by omega), h.typeflag]
  · rw [ha.slice_eq (Nat.le_add_right pos 257), h.magic]

theorem NamedInFull.of_agrees (h : NamedInFull disk pos) (ha : AgreesFrom pos disk disk') :
    NamedInFull disk' pos := by
  constructor
  · rw [ha.bytes_eq _ (Nat.le_add_right pos 99), h.terminated]
  · rw [ha.bytes_eq _ (Nat.le_add_right pos 345), h.unprefixed]

theorem AgreesFrom.symm (h : AgreesFrom pos disk disk') : AgreesFrom pos disk' disk :=
  ⟨h.size_eq.symm, fun i hi => (h.bytes_eq i hi).symm⟩

theorem holds_eq {bs : List UInt8} (h : i + bs.length ≤ disk.size) :
    disk.holds i bs = some (decide (disk.slice i bs.length = bs)) := by
  induction bs generalizing i with
  | nil => rfl
  | cons b bs ih =>
      rw [List.length_cons] at h
      have hread : disk.read i = some (disk.bytes i) := by rw [Ramdisk.read, if_pos (by omega)]
      rw [Ramdisk.holds, hread, List.length_cons, Ramdisk.slice, Option.bind_eq_bind, Option.bind_some]
      by_cases hb : disk.bytes i = b
      · rw [if_pos hb, ih (by omega), hb]
        simp
      · rw [if_neg hb]
        simp [hb]

theorem tarValidHeader_eq (h : pos + 512 ≤ disk.size) :
    tarValidHeader disk pos = some (decide (LooksLikeHeader disk pos)) :=
  holds_eq (show pos + 257 + 4 ≤ disk.size by omega)

theorem HeaderOf.looksLike (h : HeaderOf disk pos m) : LooksLikeHeader disk pos := by
  have hmagic : disk.slice (pos + 257) (4 + 1) = tmagic := h.magic
  rw [slice_append] at hmagic
  exact (List.append_inj (hmagic.trans (List.take_append_drop 4 tmagic).symm) (by simp [tmagic])).1

theorem not_looksLike_zero (h : disk.bytes (pos + 257) = 0) : ¬ LooksLikeHeader disk pos := by
  intro hlooks
  have hhead := congrArg List.head? hlooks
  simp [Ramdisk.slice, h, tmagic] at hhead

theorem Archive.pos_le {ms : List Member} (h : Archive disk pos ms) : pos ≤ disk.size := by
  induction ms generalizing pos with
  | nil =>
      obtain ⟨⟨k, hk⟩, -⟩ := h
      omega
  | cons m ms ih =>
      obtain ⟨-, -, hrest⟩ := h
      have hle := ih hrest
      omega

end agrees

/-! ### Numerals -/

theorem IsOctal.digit {d : UInt8} (h : IsOctal d) : d.toNat - 48 < 8 ∧ DigitOf (d.toNat - 48) d := by
  obtain ⟨hlo, hhi⟩ := h
  rw [UInt8.le_iff_toNat_le] at hlo hhi
  simp only [UInt8.reduceToNat] at hlo hhi
  unfold DigitOf
  omega

theorem octalValue_eq (ds : List UInt8) : octalValue ds = value 8 (ds.map fun d => d.toNat - 48) :=
  List.foldl_map.symm

section octal
variable {ds : List UInt8}

theorem octal_values_lt (hds : ∀ d ∈ ds, IsOctal d) : ∀ v ∈ ds.map fun d => d.toNat - 48, v < 8 := by
  intro v hv
  obtain ⟨d, hd, rfl⟩ := List.mem_map.mp hv
  exact (hds d hd).digit.1

theorem octalValue_lt (hds : ∀ d ∈ ds, IsOctal d) : octalValue ds < 8 ^ ds.length := by
  have hlt := valueFrom_lt (k := 0) (show 0 < 8 ^ 0 by norm_num) (octal_values_lt hds)
  rwa [Nat.zero_add, List.length_map, ← value, ← octalValue_eq] at hlt

theorem strtol_octal {rest : List UInt8} {t : UInt8} (hds : ∀ d ∈ ds, IsOctal d) (ht : ¬ IsDigit 8 t)
    (hvalue : octalValue ds < 2 ^ 63) : strtol (ds ++ t :: rest) 8 = some (octalValue ds, ds.length) := by
  have hdigits : List.Forall₂ DigitOf (ds.map fun d => d.toNat - 48) ds := by
    rw [List.forall₂_map_left_iff, List.forall₂_same]
    exact fun d hd => (hds d hd).digit.2
  rw [octalValue_eq] at hvalue ⊢
  rw [strtol_eq, chooseBase_given _ (by decide)]
  have hloop : strtolLongLoop 8 (ds ++ t :: rest) 0 0 =
      some (value 8 (ds.map fun d => d.toNat - 48), 0 + ds.length) :=
    strtolLongLoop_digits hdigits (octal_values_lt hds) ht hvalue
  rw [Nat.zero_add] at hloop
  exact strtolLoop_eq_of_long hloop

end octal

theorem HeaderOf.size_lt_long {disk : Ramdisk} {pos : Nat} {m : Member} (h : HeaderOf disk pos m) :
    m.data.length < 2 ^ 63 := by
  obtain ⟨ds, hlen, hds, hvalue, -⟩ := h.size
  rw [← hvalue]
  calc octalValue ds < 8 ^ ds.length := octalValue_lt hds
    _ ≤ 8 ^ 12 := Nat.pow_le_pow_right (by decide) (by omega)
    _ ≤ 2 ^ 63 := by norm_num

theorem HeaderOf.size_lt {disk : Ramdisk} {pos : Nat} {m : Member} (h : HeaderOf disk pos m) :
    m.data.length < 2 ^ 64 := h.size_lt_long.trans (by norm_num)

theorem HeaderOf.strtol_size {disk : Ramdisk} {pos : Nat} {m : Member} (h : HeaderOf disk pos m)
    (hsize : pos + 512 ≤ disk.size) :
    ∃ n, strtol (disk.tail (pos + 124)) 8 = some (m.data.length, n) := by
  obtain ⟨ds, hlen, hds, hvalue, hslice, hterm⟩ := h.size
  have ht : ¬ IsDigit 8 (disk.bytes (pos + 124 + ds.length)) := by
    rcases hterm with hterm | hterm <;> rw [hterm] <;> decide
  have hrest : disk.tail (pos + 124 + ds.length) = disk.bytes (pos + 124 + ds.length) ::
      disk.tail (pos + 124 + ds.length + 1) := by
    rw [tail_eq_slice (n := 1) (by omega)]
    rfl
  have hlt : octalValue ds < 2 ^ 63 := hvalue ▸ h.size_lt_long
  refine ⟨ds.length, ?_⟩
  rw [tail_eq_slice (n := ds.length) (by omega), hslice, hrest, strtol_octal hds ht hlt, hvalue]

/-! ### Names -/

section names
variable {disk : Ramdisk} {i fuel : Nat} {s : CString}

theorem Spells.read_last {b : { b : UInt8 // b ≠ 0 }} (h : Spells disk i (s ++ [b])) :
    disk.read (i + s.length) = some b.1 := by
  have hbyte : disk.bytes (i + s.length) = b.1 := h.byte (by simp)
  have hinside := h.inside
  rw [List.length_append, List.length_singleton] at hinside
  rw [Ramdisk.read, if_pos (by omega), hbyte]

/-- A terminator over the last byte makes the string shorter. -/
theorem Spells.cut {b : { b : UInt8 // b ≠ 0 }} (h : Spells disk i (s ++ [b])) :
    ∃ disk', disk.write (i + s.length) 0 = some disk' ∧ Spells disk' i s ∧ disk'.size = disk.size ∧
      disk'.bytes = Function.update disk.bytes (i + s.length) 0 := by
  have hinside := h.inside
  rw [List.length_append, List.length_singleton] at hinside
  have hin : i + s.length < disk.size := by omega
  let disk' : Ramdisk := { disk with bytes := Function.update disk.bytes (i + s.length) 0 }
  refine ⟨disk', by rw [Ramdisk.write, if_pos hin], ⟨hin, ?_⟩, rfl, rfl⟩
  have hkeep : disk'.slice i s.length = disk.slice i s.length :=
    slice_congr fun k _ hk => Function.update_of_ne (by omega) _ _
  have hstart : disk.slice i s.length = toBytes s := by
    have hslice := h.slice_eq
    rw [List.length_append, List.length_singleton, Nat.add_assoc, slice_append, toBytes, List.map_append,
      List.append_assoc] at hslice
    exact (List.append_inj hslice (by simp)).1
  rw [slice_append, hkeep, hstart]
  simp [Ramdisk.slice, disk']

/-- A name that does not end in a slash is left as it is. -/
theorem stripSlashes_stop {b : { b : UInt8 // b ≠ 0 }} (h : Spells disk i (s ++ [b])) (hb : b ≠ slash) :
    stripSlashes (fuel + 1) disk i = some disk := by
  have hlast : i + (s ++ [b]).length - 1 = i + s.length := by simp
  have hne : b.1 ≠ slash.1 := fun heq => hb (Subtype.ext heq)
  rw [stripSlashes, Ramdisk.strlen, h.string]
  simp only [Option.map_some, Option.bind_eq_bind, Option.bind_some, hlast, h.read_last, if_neg hne]
  rw [if_neg (by simp)]

theorem stripSlashes_slash (fuel : Nat) (h : Spells disk i (s ++ [slash])) :
    ∃ disk', stripSlashes (fuel + 1) disk i = stripSlashes fuel disk' i ∧ Spells disk' i s ∧
      disk'.size = disk.size ∧ ∀ k, k ≠ i + s.length → disk'.bytes k = disk.bytes k := by
  have hlast : i + (s ++ [slash]).length - 1 = i + s.length := by simp
  obtain ⟨disk', hwrite, hspells, hsize, hbytes⟩ := h.cut
  refine ⟨disk', ?_, hspells, hsize, ?_⟩
  · rw [stripSlashes, Ramdisk.strlen, h.string]
    simp only [Option.map_some, Option.bind_eq_bind, Option.bind_some, hlast, h.read_last, if_true, hwrite]
    rw [if_neg (by simp)]
  · intro k hk
    rw [hbytes, Function.update_of_ne hk]

theorem Spells.next {b : { b : UInt8 // b ≠ 0 }} (h : Spells disk i (b :: s)) : Spells disk (i + 1) s where
  inside := by
    have hinside := h.inside
    rw [List.length_cons] at hinside
    omega
  slice_eq := (List.cons.inj h.slice_eq).2

/-- The last byte of a path is not a slash. -/
theorem joinPath_last {p : Path} {c : CString} (hc : Plain c) :
    ∃ t b, b ≠ slash ∧ joinPath (p ++ [c]) = t ++ [b] := by
  refine ⟨joinPath p ++ slash :: c.dropLast, c.getLast hc.ne_nil, fun heq => ?_, ?_⟩
  · exact hc.no_slash (heq ▸ List.getLast_mem hc.ne_nil)
  · rw [joinPath_concat, List.append_assoc, List.cons_append, List.dropLast_append_getLast]

/-- The first loop of `sanitize_name`. -/
theorem skipDots_dots {ds t : CString} (h : Spells disk i (ds ++ t)) (hds : ∀ b ∈ ds, b = dot)
    (ht : t.head? ≠ some dot) (hfuel : ds.length < fuel) :
    skipDots disk fuel i = some (i + ds.length) ∧ Spells disk (i + ds.length) t := by
  induction ds generalizing i fuel with
  | nil =>
      obtain ⟨n, rfl⟩ : ∃ n, fuel = n + 1 := ⟨fuel - 1, by simp at hfuel; omega⟩
      have hinside := h.inside
      have hne : disk.bytes i ≠ dot.1 := by
        intro heq
        cases t with
        | nil =>
            have hend : disk.bytes i = 0 := (List.cons.inj h.slice_eq).1
            rw [hend] at heq
            exact absurd heq (by decide)
        | cons b t =>
            have hbyte : disk.bytes i = b.1 := h.byte (k := 0) rfl
            exact ht (congrArg some (Subtype.ext (hbyte.symm.trans heq)))
      refine ⟨?_, h⟩
      rw [skipDots, Ramdisk.read, if_pos (by omega), Option.bind_eq_bind, Option.bind_some, if_neg hne]
      rfl
  | cons b ds ih =>
      obtain ⟨n, rfl⟩ : ∃ n, fuel = n + 1 := ⟨fuel - 1, by simp at hfuel; omega⟩
      rw [List.length_cons] at hfuel
      obtain rfl : b = dot := hds b List.mem_cons_self
      have hinside := h.inside
      have hbyte : disk.bytes i = dot.1 := h.byte (k := 0) rfl
      have hnext : Spells disk (i + 1) (ds ++ t) := h.next
      obtain ⟨hskip, hspells⟩ := ih hnext (fun b hb => hds b (List.mem_cons_of_mem _ hb))
        (show ds.length < n by omega)
      rw [List.length_cons, Nat.add_comm ds.length, ← Nat.add_assoc]
      refine ⟨?_, hspells⟩
      rw [skipDots, Ramdisk.read, if_pos (by omega), Option.bind_eq_bind, Option.bind_some, if_pos hbyte,
        hskip]

theorem sanitizeName_path {p : Path} {c ds t : CString} (h : Spells disk i (ds ++ t))
    (hds : ∀ b ∈ ds, b = dot) (hc : Plain c)
    (ht : t = joinPath (p ++ [c]) ∨ t = joinPath (p ++ [c]) ++ [slash]) :
    ∃ disk', sanitizeName disk i = some (i + ds.length, disk') ∧
      disk'.string (i + ds.length) = some (joinPath (p ++ [c])) ∧ disk'.size = disk.size ∧
      ∀ k, i + (ds ++ t).length ≤ k → disk'.bytes k = disk.bytes k := by
  have hinside := h.inside
  rw [List.length_append] at hinside
  have hhead : t.head? = some slash := by
    have hpath := joinPath_head p c
    rcases ht with rfl | rfl
    · exact hpath
    · rw [List.head?_append, hpath]
      rfl
  obtain ⟨hskip, hnext⟩ := skipDots_dots h hds (by rw [hhead]; decide)
    (show ds.length < disk.size + 1 by omega)
  obtain ⟨u, b, hb, hlast⟩ := joinPath_last (p := p) hc
  simp only [sanitizeName, hskip, Option.bind_eq_bind, Option.bind_some]
  rcases ht with rfl | rfl
  · rw [hlast] at hnext
    rw [stripSlashes_stop hnext hb, hlast]
    exact ⟨disk, rfl, hnext.string, rfl, fun _ _ => rfl⟩
  · obtain ⟨disk', hstrip, hspells, hsize, hold⟩ := stripSlashes_slash (disk.size + 1) hnext
    rw [hstrip]
    rw [hlast] at hspells
    rw [stripSlashes_stop hspells hb]
    refine ⟨disk', rfl, by rw [hspells.string, hlast], hsize, fun k hk => hold k ?_⟩
    simp only [List.length_append, List.length_singleton] at hk
    omega

/-- What the second loop leaves does not end in a slash. -/
theorem stripSlashes_leaves {disk' : Ramdisk} {t : CString} (h : Spells disk i t)
    (hstrip : stripSlashes fuel disk i = some disk') :
    ∃ t', disk'.string i = some t' ∧ t' <+: t ∧ t'.getLast? ≠ some slash := by
  induction fuel generalizing disk t with
  | zero => simp [stripSlashes] at hstrip
  | succ fuel ih =>
      rcases List.eq_nil_or_concat' t with rfl | ⟨s, b, rfl⟩
      · -- the byte before the string
        rw [stripSlashes, Ramdisk.strlen, h.string] at hstrip
        simp only [Option.map_some, Option.bind_eq_bind, Option.bind_some, List.length_nil,
          Nat.add_zero] at hstrip
        split_ifs at hstrip with hzero
        obtain ⟨b, -, hstrip⟩ := Option.bind_eq_some_iff.mp hstrip
        split_ifs at hstrip with hb
        · obtain ⟨disk₁, hwrite, hstrip⟩ := Option.bind_eq_some_iff.mp hstrip
          refine ih ⟨?_, ?_⟩ hstrip
          · rw [Ramdisk.write] at hwrite
            split_ifs at hwrite
            obtain rfl := Option.some.inj hwrite
            exact h.inside
          · rw [Ramdisk.write] at hwrite
            split_ifs at hwrite
            obtain rfl := Option.some.inj hwrite
            rw [← h.slice_eq]
            exact slice_congr fun k hk _ => Function.update_of_ne (by omega) _ _
        · obtain rfl := Option.some.inj hstrip
          exact ⟨[], h.string, List.prefix_rfl, by simp⟩
      · by_cases hb : b = slash
        · subst hb
          obtain ⟨disk₁, hstep, hspells, -, -⟩ := stripSlashes_slash fuel h
          rw [hstep] at hstrip
          obtain ⟨t', hstring, hprefix, hlast⟩ := ih hspells hstrip
          exact ⟨t', hstring, hprefix.trans (List.prefix_append s [slash]), hlast⟩
        · rw [stripSlashes_stop h hb] at hstrip
          obtain rfl := Option.some.inj hstrip
          exact ⟨s ++ [b], h.string, List.prefix_rfl, by simpa using hb⟩

theorem sanitizeName_lost {disk' : Ramdisk} {ds t : CString} {n : Nat} (h : Spells disk i (ds ++ t))
    (hds : ∀ b ∈ ds, b = dot) (hdot : t.head? ≠ some dot) (ht : t.head? ≠ some slash ∨ t = [slash])
    (hcall : sanitizeName disk i = some (n, disk')) :
    ∃ path, disk'.string n = some path ∧ path.head? ≠ some slash := by
  have hinside := h.inside
  rw [List.length_append] at hinside
  obtain ⟨hskip, hspells⟩ := skipDots_dots h hds hdot (show ds.length < disk.size + 1 by omega)
  rw [sanitizeName, hskip, Option.bind_eq_bind, Option.bind_some] at hcall
  obtain ⟨disk₁, hstrip, hcall⟩ := Option.bind_eq_some_iff.mp hcall
  obtain ⟨rfl, rfl⟩ := Prod.mk.inj (Option.some.inj hcall)
  obtain ⟨path, hstring, hprefix, hlast⟩ := stripSlashes_leaves hspells hstrip
  refine ⟨path, hstring, fun hhead => ?_⟩
  cases path with
  | nil => simp at hhead
  | cons b path =>
      obtain rfl := Option.some.inj hhead
      obtain ⟨rest, rfl⟩ := hprefix
      rcases ht with hne | hone
      · exact hne rfl
      · rw [List.cons_append, List.cons.injEq, List.append_eq_nil_iff] at hone
        rw [hone.2.1] at hlast
        exact hlast rfl

end names

/-- The bytes of a name. A name of dots counts for less than any path in an archive, since such a
name is where `sanitize_name` can take a path to start. -/
def nameWeight (c : CString) : Int := if c.all (fun b => decide (b = dot)) then c.length - 512 else c.length

/-- The bytes of the names on a path. -/
def weight (p : Path) : Int := (p.map nameWeight).sum

theorem nameWeight_of_dots {c : CString} (h : ∀ b ∈ c, b = dot) : nameWeight c = c.length - 512 :=
  if_pos (List.all_eq_true.mpr fun b hb => decide_eq_true (h b hb))

theorem nameWeight_of_not {c : CString} (h : ¬ ∀ b ∈ c, b = dot) : nameWeight c = c.length :=
  if_neg fun hall => h fun b hb => of_decide_eq_true (List.all_eq_true.mp hall b hb)

theorem nameWeight_le (c : CString) : nameWeight c ≤ c.length := by
  unfold nameWeight
  split_ifs <;> omega

theorem nameWeight_prefix {c d : CString} (h : c <+: d) :
    nameWeight c ≤ nameWeight d ∧ (nameWeight d ≤ nameWeight c → c = d) := by
  have hlen := h.length_le
  have hdots : (∀ b ∈ d, b = dot) → ∀ b ∈ c, b = dot := fun hd b hb => hd b (h.subset hb)
  by_cases hd : ∀ b ∈ d, b = dot
  · rw [nameWeight_of_dots hd, nameWeight_of_dots (hdots hd)]
    exact ⟨by omega, fun hback => h.eq_of_length (by omega)⟩
  · rw [nameWeight_of_not hd]
    by_cases hc : ∀ b ∈ c, b = dot
    · rw [nameWeight_of_dots hc]
      exact ⟨by omega, fun hback => by omega⟩
    · rw [nameWeight_of_not hc]
      exact ⟨by omega, fun hback => h.eq_of_length (by omega)⟩

/-- Longer names make a heavier path. -/
theorem weight_le_of_prefixes {p q : Path} (h : List.Forall₂ (· <+: ·) p q) :
    weight p ≤ weight q ∧ (weight q ≤ weight p → p = q) := by
  induction h with
  | nil => exact ⟨Int.le_refl _, fun _ => rfl⟩
  | @cons c d p q hcd hpq ih =>
      obtain ⟨hle, heq⟩ := ih
      obtain ⟨hname, hsame⟩ := nameWeight_prefix hcd
      simp only [weight, List.map_cons, List.sum_cons] at *
      refine ⟨by omega, fun hback => ?_⟩
      rw [heq (by omega), hsame (by omega)]

theorem weight_append (p q : Path) : weight (p ++ q) = weight p + weight q := by
  simp [weight]

theorem weight_concat (p : Path) (c : CString) : weight (p ++ [c]) = weight p + nameWeight c := by
  rw [weight_append]
  simp [weight]

theorem weight_le_length (p : Path) : weight p ≤ (joinPath p).length := by
  induction p with
  | nil => simp [weight, joinPath]
  | cons c p ih =>
      have hname := nameWeight_le c
      have hjoin : (joinPath (c :: p)).length = c.length + 1 + (joinPath p).length := by
        rw [joinPath, List.flatMap_cons, List.length_append, List.length_cons, joinPath]
      rw [hjoin]
      simp only [weight, List.map_cons, List.sum_cons] at ih ⊢
      omega

section headers
variable {disk : Ramdisk} {pos : Nat} {m : Member} {p : Path} {c name : CString}

theorem exists_cstring {ds : List UInt8} (h : ∀ d ∈ ds, d ≠ 0) : ∃ s, toBytes s = ds := by
  induction ds with
  | nil => exact ⟨[], rfl⟩
  | cons d ds ih =>
      obtain ⟨s, hs⟩ := ih fun e he => h e (List.mem_cons_of_mem d he)
      exact ⟨⟨d, h d List.mem_cons_self⟩ :: s, congrArg (d :: ·) hs⟩

/-- What the kernel takes for the path of a member. -/
structure ReadsAs (disk : Ramdisk) (pos : Nat) (m : Member) (ds t : CString) (p : Path) (c : CString) :
    Prop where
  spells : Spells disk pos (ds ++ t)
  dots : ds ≠ [] ∧ ∀ b ∈ ds, b = dot
  short : (ds ++ t).length < 109
  path : t = joinPath (p ++ [c]) ∨ t = joinPath (p ++ [c]) ++ [slash]
  plain : ∀ e ∈ p ++ [c], Plain e
  whole : NamedInFull disk pos → p ++ [c] = m.path
  longer : ¬ NamedInFull disk pos → weight m.path < weight (p ++ [c])

/-- The name is no path behind its dots, so the kernel finds no directory for it. -/
structure Lost (disk : Ramdisk) (pos : Nat) (ds t : CString) : Prop where
  spells : Spells disk pos (ds ++ t)
  dots : ∀ b ∈ ds, b = dot
  not_dot : t.head? ≠ some dot
  no_path : t.head? ≠ some slash ∨ t = [slash]
  not_root : ds ++ t ≠ [dot, slash] ∧ ds ++ t ≠ [slash]
  prefixed : disk.bytes (pos + 345) ≠ 0

/-- The name field as the kernel reads it, with the mode behind it if it has no terminator. -/
structure FieldRead (disk : Ramdisk) (pos : Nat) (name mode : CString) : Prop where
  spells : Spells disk pos (name ++ mode)
  short : (name ++ mode).length < 108
  digits : ∀ d ∈ mode, IsOctal d.1 ∨ d.1 = 32
  terminated : disk.bytes (pos + 99) = 0 ↔ mode = []

theorem Field.start_eq_nil {i n : Nat} {s : CString} (h : Field disk i (n + 1) s) :
    disk.bytes i = 0 ↔ s = [] := by
  have hhead := congrArg List.head? h.2
  rw [Ramdisk.slice, List.head?_cons] at hhead
  cases s with
  | nil => simpa [toBytes, List.replicate_succ] using hhead
  | cons b s =>
      rw [Option.some.inj hhead]
      simpa using b.2

theorem Field.spells (h : Field disk pos 100 name) (hlen : name.length < 100) (hsize : pos + 512 ≤ disk.size) :
    Spells disk pos name ∧ disk.bytes (pos + 99) = 0 := by
  obtain ⟨-, hslice⟩ := h
  obtain ⟨k, hk⟩ : ∃ k, 100 = name.length + 1 + k := ⟨99 - name.length, by omega⟩
  have hpad : List.replicate (100 - name.length) (0 : UInt8) = [0] ++ List.replicate k 0 := by
    rw [show 100 - name.length = k + 1 by omega, List.replicate_succ]
    rfl
  refine ⟨⟨by omega, ?_⟩, ?_⟩
  · rw [hpad, ← List.append_assoc, hk, slice_append] at hslice
    exact (List.append_inj hslice (by simp [toBytes])).1
  · have hlast := slice_getElem? disk pos (show 99 < 100 by decide)
    rw [hslice, List.getElem?_append_right (by simp [toBytes]; omega)] at hlast
    rw [List.getElem?_replicate, if_pos (by simp [toBytes]; omega)] at hlast
    exact (Option.some.inj hlast).symm

/-- A name that fills its field is read on into the mode. -/
theorem Field.spells_full (h : Field disk pos 100 name) (hlen : name.length = 100)
    (hsize : pos + 512 ≤ disk.size) {ds : CString} (hds : ds.length < 8)
    (hmode : disk.slice (pos + 100) (ds.length + 1) = toBytes ds ++ [0]) :
    Spells disk pos (name ++ ds) ∧ disk.bytes (pos + 99) ≠ 0 := by
  obtain ⟨-, hslice⟩ := h
  rw [hlen, Nat.sub_self, List.replicate_zero, List.append_nil] at hslice
  have hspells : Spells disk pos (name ++ ds) := by
    refine ⟨by rw [List.length_append]; omega, ?_⟩
    rw [List.length_append, Nat.add_assoc, slice_append, hlen, hslice, hmode, ← List.append_assoc, toBytes,
      toBytes, toBytes, List.map_append]
  refine ⟨hspells, ?_⟩
  obtain ⟨b, hb⟩ : ∃ b, (name ++ ds)[99]? = some b :=
    ⟨_, List.getElem?_eq_getElem (by rw [List.length_append]; omega)⟩
  rw [hspells.byte hb]
  exact b.2

theorem HeaderOf.field_read (h : HeaderOf disk pos m) (hname : Field disk pos 100 name)
    (hsize : pos + 512 ≤ disk.size) : ∃ mode, FieldRead disk pos name mode := by
  rcases Nat.lt_or_eq_of_le hname.1 with hlt | hfull
  · obtain ⟨hspells, hnul⟩ := hname.spells hlt hsize
    refine ⟨[], ?_, ?_, by simp, by simpa using hnul⟩
    · rwa [List.append_nil]
    · rw [List.append_nil]
      omega
  · obtain ⟨bytes, hne, hshort, hbytes, hmode⟩ := h.mode
    obtain ⟨ds, rfl⟩ : ∃ ds, toBytes ds = bytes := by
      apply exists_cstring
      intro d hd
      rintro rfl
      exact absurd (hbytes 0 hd) (by decide)
    have hlength : (toBytes ds).length = ds.length := by simp [toBytes]
    rw [hlength] at hshort hmode
    obtain ⟨hspells, hnul⟩ := hname.spells_full hfull hsize hshort hmode
    refine ⟨ds, hspells, by rw [List.length_append]; omega, fun d hd => hbytes d.1 (List.mem_map_of_mem hd), ?_⟩
    constructor
    · exact fun hz => absurd hz hnul
    · rintro rfl
      exact absurd rfl hne

/-- The bytes of the mode do not end a component. -/
theorem plain_mode {ds : CString} (hne : ds ≠ []) (hds : ∀ d ∈ ds, IsOctal d.1 ∨ d.1 = 32) (c : CString)
    (hc : slash ∉ c) : Plain (c ++ ds) := by
  have hnot : ∀ d ∈ ds, d ≠ slash ∧ d ≠ dot := by
    intro d hd
    constructor <;> rintro rfl <;> exact absurd (hds _ hd) (by decide)
  obtain ⟨d, hd⟩ := List.exists_mem_of_ne_nil ds hne
  refine ⟨by simp [hne], ?_, ?_⟩
  · rw [List.mem_append]
    rintro (hm | hm)
    · exact hc hm
    · exact (hnot slash hm).1 rfl
  · simp only [isDotName, Bool.or_eq_false_iff, decide_eq_false_iff_not]
    constructor <;> intro heq <;>
      · have hmem : d ∈ c ++ ds := List.mem_append_right c hd
        rw [heq] at hmem
        exact (hnot d hd).2 (by simpa using hmem)

theorem nameWeight_mode {ds : CString} (hne : ds ≠ []) (hds : ∀ d ∈ ds, IsOctal d.1 ∨ d.1 = 32)
    (c : CString) : nameWeight (c ++ ds) = c.length + ds.length := by
  obtain ⟨d, hd⟩ := List.exists_mem_of_ne_nil ds hne
  have hnot : ¬ ∀ b ∈ c ++ ds, b = dot := by
    intro hall
    have hdigit := hds d hd
    rw [hall d (List.mem_append_right c hd)] at hdigit
    exact absurd hdigit (by decide)
  rw [nameWeight_of_not hnot, List.length_append, Nat.cast_add]

theorem read_path {q : Path} {tail mode : CString} (hq : ∀ e ∈ q, Plain e)
    (htail : tail = [] ∨ tail = [slash]) (hmode : ∀ d ∈ mode, IsOctal d.1 ∨ d.1 = 32)
    (hsome : q ≠ [] ∨ tail = [slash] ∧ mode ≠ []) :
    ∃ p e, (joinPath q ++ tail ++ mode = joinPath (p ++ [e]) ∨
        joinPath q ++ tail ++ mode = joinPath (p ++ [e]) ++ [slash]) ∧ (∀ x ∈ p ++ [e], Plain x) ∧
      (mode = [] → p ++ [e] = q) ∧ (mode ≠ [] → weight q < weight (p ++ [e])) := by
  by_cases hnil : mode = []
  · subst hnil
    obtain ⟨p, e, rfl⟩ := (List.eq_nil_or_concat' q).resolve_left (hsome.resolve_right fun h => h.2 rfl)
    refine ⟨p, e, ?_, hq, fun _ => rfl, fun hne => absurd rfl hne⟩
    rw [List.append_nil]
    rcases htail with rfl | rfl
    · exact .inl (List.append_nil _)
    · exact .inr rfl
  · have hlength : 0 < mode.length := List.length_pos_iff.mpr hnil
    rcases htail with rfl | rfl
    · -- the mode makes the last name longer
      obtain ⟨p, c, rfl⟩ := (List.eq_nil_or_concat' q).resolve_left (hsome.resolve_right fun h => by simp at h)
      have hc : Plain c := hq c (by simp)
      refine ⟨p, c ++ mode, .inl (by simp [joinPath_concat]), ?_, fun h => absurd h hnil, fun _ => ?_⟩
      · intro x hx
        rcases List.mem_append.mp hx with hx | hx
        · exact hq x (List.mem_append_left _ hx)
        · exact List.mem_singleton.mp hx ▸ plain_mode hnil hmode c hc.no_slash
      · have hle := nameWeight_le c
        have hgrow := nameWeight_mode hnil hmode c
        rw [weight_concat, weight_concat]
        omega
    · -- the mode is a name of its own
      refine ⟨q, mode, .inl (by simp [joinPath_concat]), ?_, fun h => absurd h hnil, fun _ => ?_⟩
      · intro x hx
        rcases List.mem_append.mp hx with hx | hx
        · exact hq x hx
        · exact List.mem_singleton.mp hx ▸ plain_mode hnil hmode [] (by simp)
      · have hgrow := nameWeight_mode hnil hmode []
        rw [List.nil_append, List.length_nil] at hgrow
        rw [weight_concat]
        omega

/-- Where a path can be split into a prefix and a name. -/
theorem split_joinPath {p : Path} {w start : CString} (hw : slash ∉ w) (hp : ∀ c ∈ p, slash ∉ c)
    (h : w ++ joinPath p = start ++ slash :: name) :
    ∃ u c q, p = u ++ c :: q ∧ start = w ++ joinPath u ∧ name = c ++ joinPath q := by
  induction p generalizing w start with
  | nil =>
      have hmem : slash ∈ w ++ joinPath [] := by
        rw [h]
        simp
      rw [joinPath, List.flatMap_nil, List.append_nil] at hmem
      exact absurd hmem hw
  | cons c cs ih =>
      have hjoin : joinPath (c :: cs) = slash :: (c ++ joinPath cs) := by
        simp only [joinPath, List.flatMap_cons, List.cons_append]
      rw [hjoin] at h
      rcases List.append_eq_append_iff.mp h with ⟨v, rfl, hv⟩ | ⟨v, rfl, hv⟩
      · cases v with
        | nil =>
            rw [List.nil_append, List.cons.injEq] at hv
            exact ⟨[], c, cs, rfl, by simp [joinPath], hv.2.symm⟩
        | cons b v =>
            rw [List.cons_append, List.cons.injEq] at hv
            obtain ⟨rfl, hv⟩ := hv
            obtain ⟨u, d, q, rfl, rfl, hname⟩ := ih (hp c List.mem_cons_self)
              (fun d hd => hp d (List.mem_cons_of_mem c hd)) hv
            refine ⟨c :: u, d, q, rfl, ?_, hname⟩
            simp only [joinPath, List.flatMap_cons, List.cons_append]
      · cases v with
        | nil =>
            rw [List.nil_append, List.cons.injEq] at hv
            exact ⟨[], c, cs, rfl, by simp [joinPath], hv.2⟩
        | cons b v =>
            rw [List.cons_append, List.cons.injEq] at hv
            exact absurd (by rw [← hv.1]; simp) hw

theorem Member.HasName.split {start : CString} (h : m.HasName (fullName start name)) (hstart : start ≠ [])
    (hplain : ∀ c ∈ m.path, Plain c) :
    name = [] ∨ ∃ u c q tail, m.path = u ++ c :: q ∧ start = dot :: joinPath u ∧
      (tail = [] ∨ tail = [slash]) ∧ name = c ++ joinPath q ++ tail := by
  have hdot : slash ∉ [dot] := by decide
  have hno : ∀ c ∈ m.path, slash ∉ c := fun c hc => (hplain c hc).no_slash
  rw [fullName, if_neg hstart] at h
  rcases h with ⟨-, hname⟩ | ⟨-, hname⟩
  · -- the slash at the end stands before an empty name
    have hlast : [dot] ++ joinPath (m.path ++ [[]]) = start ++ slash :: name := by
      rw [hname, joinPath_concat]
      rfl
    obtain ⟨u, c, q, hpath, hstart', rfl⟩ := split_joinPath hdot (by
      intro c hc
      rcases List.mem_append.mp hc with hc | hc
      · exact hno c hc
      · rw [List.mem_singleton.mp hc]
        exact List.not_mem_nil) hlast
    rcases List.eq_nil_or_concat' q with rfl | ⟨q, e, rfl⟩
    · obtain ⟨-, hc⟩ := List.append_inj' hpath rfl
      obtain rfl : c = [] := (List.singleton_inj.mp hc).symm
      exact .inl rfl
    · rw [← List.cons_append, ← List.append_assoc] at hpath
      obtain ⟨hsplit, he⟩ := List.append_inj' hpath rfl
      obtain rfl : e = [] := (List.singleton_inj.mp he).symm
      refine .inr ⟨u, c, q, [slash], hsplit, hstart', .inr rfl, ?_⟩
      rw [joinPath_concat, List.append_assoc]
  · obtain ⟨u, c, q, hpath, hstart', rfl⟩ := split_joinPath hdot hno hname.symm
    exact .inr ⟨u, c, q, [], hpath, hstart', .inl rfl, (List.append_nil _).symm⟩

theorem plain_not_root (h : Plain c) (rest : CString) :
    c ++ rest ≠ [dot, slash] ∧ c ++ rest ≠ [slash] := by
  have hslash := h.no_slash
  rcases c with - | ⟨b, - | ⟨b', c⟩⟩
  · exact absurd rfl h.ne_nil
  · have hdot : b ≠ dot := by
      rintro rfl
      exact absurd h.not_dot (by decide)
    have hne : b ≠ slash := fun heq => hslash (by simp [heq])
    simp [hdot, hne]
  · have hne : b' ≠ slash := fun heq => hslash (by simp [heq])
    simp [hne]

theorem FieldRead.mode_head {mode : CString} (h : FieldRead disk pos name mode) :
    mode.head? ≠ some dot ∧ mode.head? ≠ some slash := by
  constructor <;> intro hhead <;>
    exact absurd (h.digits _ (List.mem_of_head? hhead)) (by decide)

/-- An empty name behind a prefix. -/
theorem FieldRead.lost_empty {mode : CString} (h : FieldRead disk pos [] mode)
    (hprefixed : disk.bytes (pos + 345) ≠ 0) : Lost disk pos [] mode where
  spells := h.spells
  dots := by simp
  not_dot := h.mode_head.1
  no_path := .inl h.mode_head.2
  not_root := by
    constructor <;> rintro rfl
    · exact h.mode_head.1 rfl
    · exact h.mode_head.2 rfl
  prefixed := hprefixed

/-- A component that is no name of dots goes on behind its dots, and not with a slash. -/
theorem exists_behind_dots (hc : Plain c) (hdots : ¬ ∀ b ∈ c, b = dot) :
    ∃ (ds : CString) (d : { b : UInt8 // b ≠ 0 }) (e : CString),
      c = ds ++ d :: e ∧ (∀ b ∈ ds, b = dot) ∧ d ≠ dot ∧ d ≠ slash := by
  simp only [not_forall] at hdots
  obtain ⟨b, hb, hne⟩ := hdots
  have hsplit := List.takeWhile_append_dropWhile (p := fun b => decide (b = dot)) (l := c)
  have hrest : c.dropWhile (fun b => decide (b = dot)) ≠ [] := by
    intro hnil
    rw [List.dropWhile_eq_nil_iff] at hnil
    exact hne (by simpa using hnil b hb)
  obtain ⟨d, e, hde⟩ := List.exists_cons_of_ne_nil hrest
  rw [hde] at hsplit
  refine ⟨_, d, e, hsplit.symm, fun x hx => by simpa using List.mem_takeWhile_imp hx, ?_, ?_⟩
  · have hnot := List.head_dropWhile_not (fun b => decide (b = dot)) hrest
    simpa [hde] using hnot
  · rintro rfl
    exact hc.no_slash (hsplit ▸ List.mem_append_right _ List.mem_cons_self)

/-- A name with a prefix before it is a path only if it begins with a name of dots. -/
theorem FieldRead.prefixed {start mode : CString} (h : FieldRead disk pos name mode) {u q : Path}
    {tail : CString} (hplain : ∀ e ∈ m.path, Plain e) (hpath : m.path = u ++ c :: q)
    (hstart : start = dot :: joinPath u) (hshort : start.length ≤ 155)
    (htail : tail = [] ∨ tail = [slash]) (hname : name = c ++ joinPath q ++ tail)
    (hprefixed : disk.bytes (pos + 345) ≠ 0) :
    (∃ ds t p c, ReadsAs disk pos m ds t p c) ∨ ∃ ds t, Lost disk pos ds t := by
  have hc : Plain c := hplain c (by simp [hpath])
  have hspells := h.spells
  have hlength := h.short
  rw [hname, List.append_assoc, List.append_assoc, ← List.append_assoc _ tail mode] at hspells hlength
  have hroot := plain_not_root hc (joinPath q ++ tail ++ mode)
  have hnot : ¬ NamedInFull disk pos := fun hn => hprefixed hn.unprefixed
  by_cases hdots : ∀ b ∈ c, b = dot
  · by_cases hsome : q ≠ [] ∨ tail = [slash] ∧ mode ≠ []
    · obtain ⟨p, e, ht, hplain', hsame, hgrow⟩ :=
        read_path (fun e he => hplain e (by rw [hpath]; simp [he])) htail h.digits hsome
      refine .inl ⟨c, _, p, e, hspells, ⟨hc.ne_nil, hdots⟩, by omega, ht, hplain', fun hn => absurd hn hnot,
        fun _ => ?_⟩
      -- the prefix and the dots count for less than nothing
      have hu := weight_le_length u
      have hdot := nameWeight_of_dots hdots
      have hq : weight q ≤ weight (p ++ [e]) := by
        by_cases hmode : mode = []
        · rw [hsame hmode]
        · exact Int.le_of_lt (hgrow hmode)
      rw [hstart, List.length_cons] at hshort
      rw [List.length_append] at hlength
      rw [hpath, weight_append]
      have hcons : weight (c :: q) = nameWeight c + weight q := by simp [weight]
      omega
    · rw [not_or, not_not, not_and_or, not_not] at hsome
      obtain ⟨rfl, hrest⟩ := hsome
      have hlost : tail ++ mode = mode ∨ tail ++ mode = [slash] := by
        rcases htail with rfl | rfl
        · exact .inl rfl
        · obtain rfl := hrest.resolve_left fun hne => hne rfl
          exact .inr rfl
      refine .inr ⟨c, tail ++ mode, hspells, hdots, ?_, ?_, hroot, hprefixed⟩
      · rcases hlost with heq | heq <;> rw [heq]
        · exact h.mode_head.1
        · decide
      · rcases hlost with heq | heq <;> rw [heq]
        · exact .inl h.mode_head.2
        · exact .inr rfl
  · obtain ⟨ds, d, e, hsplit, hds, hd, hslash⟩ := exists_behind_dots hc hdots
    rw [hsplit, List.append_assoc, List.cons_append] at hspells hroot
    exact .inr ⟨ds, _, hspells, hds, by simpa using hd, .inl (by simpa using hslash), hroot, hprefixed⟩

/-- What the kernel reads: the path of the member, one that weighs more, or none. -/
theorem HeaderOf.reads (h : HeaderOf disk pos m) (hsize : pos + 512 ≤ disk.size)
    (hplain : ∀ c ∈ m.path, Plain c) (hpath : m.path ≠ []) :
    (∃ ds t p c, ReadsAs disk pos m ds t p c) ∨ ∃ ds t, Lost disk pos ds t := by
  obtain ⟨start, name, hname, hfield, hstart⟩ := h.name
  obtain ⟨mode, hread⟩ := h.field_read hfield hsize
  have hprefixed := hstart.start_eq_nil
  by_cases hs : start = []
  · have hfull : NamedInFull disk pos ↔ mode = [] := by
      rw [← hread.terminated]
      exact ⟨fun hn => hn.1, fun hz => ⟨hz, hprefixed.mpr hs⟩⟩
    obtain ⟨tail, htail, hshape⟩ : ∃ tail, (tail = [] ∨ tail = [slash]) ∧
        name = [dot] ++ (joinPath m.path ++ tail) := by
      rw [fullName, if_pos hs] at hname
      rcases hname with ⟨-, hname⟩ | ⟨-, hname⟩
      · exact ⟨[slash], .inr rfl, hname⟩
      · exact ⟨[], .inl rfl, by rw [hname, List.append_nil]; rfl⟩
    have hspells := hread.spells
    have hlength := hread.short
    rw [hshape, List.append_assoc] at hspells hlength
    obtain ⟨p, e, ht, hplain', hsame, hgrow⟩ := read_path hplain htail hread.digits (.inl hpath)
    exact .inl ⟨[dot], _, p, e, hspells, ⟨by simp, by simp⟩, by omega, ht, hplain',
      fun hn => hsame (hfull.mp hn), fun hn => hgrow fun hm => hn (hfull.mpr hm)⟩
  · have hbyte : disk.bytes (pos + 345) ≠ 0 := fun hz => hs (hprefixed.mp hz)
    rcases hname.split hs hplain with rfl | ⟨u, c, q, tail, hpath', hstart', htail, rfl⟩
    · exact .inr ⟨[], mode, hread.lost_empty hbyte⟩
    · exact hread.prefixed hplain hpath' hstart' hstart.1 htail rfl hbyte

theorem HeaderOf.reads_root (h : HeaderOf disk pos m) (hsize : pos + 512 ≤ disk.size) (hpath : m.path = []) :
    (NamedInFull disk pos ∧ Spells disk pos [dot, slash]) ∨ ∃ ds t, Lost disk pos ds t := by
  obtain ⟨start, name, hname, hfield, hstart⟩ := h.name
  have hprefixed := hstart.start_eq_nil
  by_cases hs : start = []
  · obtain ⟨-, rfl⟩ := (by rwa [fullName, if_pos hs] at hname : m.HasName name).resolve_right
      fun hne => hne.1 hpath
    rw [hpath] at hfield
    obtain ⟨hspells, hnul⟩ := hfield.spells (by decide) hsize
    exact .inl ⟨⟨hnul, hprefixed.mpr hs⟩, hspells⟩
  · obtain ⟨mode, hread⟩ := h.field_read hfield hsize
    rcases hname.split hs (by simp [hpath]) with rfl | ⟨u, c, q, tail, hpath', -⟩
    · exact .inr ⟨[], mode, hread.lost_empty fun hz => hs (hprefixed.mp hz)⟩
    · simp [hpath] at hpath'

end headers

end Lucix.Initramfs
