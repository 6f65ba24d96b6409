import Lucix.BitFields

/-!
# Descriptor tables, `arch/x86_64/gdt.c`, `include/arch/gdt.h` and `interrupt.c`

The words that `setup_gdt` and `setup_interrupts` store, and what the CPU reads in them.
-/
namespace Lucix.Descriptors
open BitFields

structure GdtEntry where
  limitLow : Nat
  baseLow : Nat
  baseMiddle : Nat
  type : Nat
  desType : Nat
  dpl : Nat
  present : Nat
  limit : Nat
  avl : Nat
  zero : Nat
  opSiz : Nat
  gran : Nat
  baseHigh : Nat
  deriving DecidableEq, Repr

def GdtEntry.fields (e : GdtEntry) : List Field :=
  [(16, e.limitLow), (16, e.baseLow), (8, e.baseMiddle), (4, e.type), (1, e.desType), (2, e.dpl), (1, e.present),
    (4, e.limit), (1, e.avl), (1, e.zero), (1, e.opSiz), (1, e.gran), (8, e.baseHigh)]

/-- The eight bytes of an entry as a number. -/
def GdtEntry.word (e : GdtEntry) : Nat := pack e.fields

structure LongGdtEntry where
  limit1 : Nat
  base4 : Nat
  base3 : Nat
  access : Nat
  limit0 : Nat
  flags : Nat
  base1 : Nat
  base0 : Nat
  rsvd : Nat
  deriving DecidableEq, Repr

def LongGdtEntry.fields (e : LongGdtEntry) : List Field :=
  [(16, e.limit1), (16, e.base4), (8, e.base3), (8, e.access), (4, e.limit0), (4, e.flags), (8, e.base1),
    (32, e.base0), (32, e.rsvd)]

/-- The sixteen bytes of a long entry. -/
def LongGdtEntry.word (e : LongGdtEntry) : Nat := pack e.fields

/-- The macro `GDT_TSS_ENTRY64`. -/
def gdtTssEntry64 (base limit : Nat) : LongGdtEntry where
  rsvd := 0
  base0 := base >>> 32 &&& 0xffffffff
  base1 := base >>> 24 &&& 0xff
  flags := 2
  limit0 := limit >>> 16 &&& 0xf
  access := 0x89
  base3 := base >>> 16 &&& 0xff
  base4 := base &&& 0xffff
  limit1 := limit &&& 0xffff

/-- The macro `GDT_ENTRY64`. -/
def gdtEntry64 (type base limit dpl : Nat) : GdtEntry where
  limitLow := limit >>> 12 &&& 0xffff
  baseLow := base &&& 0xffff
  baseMiddle := base >>> 16 &&& 0xff
  type := type
  desType := 1
  dpl := dpl
  present := 1
  limit := limit >>> 28
  avl := 0
  zero := 1
  opSiz := 0
  gran := 1
  baseHigh := base >>> 24 &&& 0xff

/-- The macros `GDT_DPL_KERNEL` and `GDT_DPL_USER`. -/
def gdtDplKernel : Nat := 0
def gdtDplUser : Nat := 3

/-- The macro `GDT_TYPE_EXECUTABLE`. -/
def gdtTypeExecutable : Nat := 8

/-- The macros `GDT_TYPE_WRITABLE` and `GDT_TYPE_READABLE`. -/
def gdtTypeWritable : Nat := 2
def gdtTypeReadable : Nat := 2

/-- The selectors of the segments, the macros from `_KERNEL_CS` to `_GDT_TSS`. -/
def kernelCs : Nat := 1 <<< 3
def kernelDs : Nat := 2 <<< 3
def userCs : Nat := 3 <<< 3
def userDs : Nat := 4 <<< 3
def gdtTss : Nat := 5 <<< 3

/-- The value of `sizeof(struct tss_entry64)`. -/
def tssSize : Nat := 104

/-- What `lgdt` is given: the limit and the entries of eight bytes each. -/
structure Gdt where
  limit : Nat
  entries : List Nat
  deriving DecidableEq, Repr

/-- The function `setup_gdt`, for a CPU whose TSS is at `tss`. -/
def setupGdt (tss : Nat) : Gdt where
  limit := 8 * 7
  entries :=
    let code := gdtTypeExecutable ||| gdtTypeReadable
    let tssEntry := (gdtTssEntry64 tss (tssSize - 1)).word
    [0,
      (gdtEntry64 code 0 0xFFFFFFFF gdtDplKernel).word,
      (gdtEntry64 gdtTypeWritable 0 0xFFFFFFFF gdtDplKernel).word,
      (gdtEntry64 code 0 0xFFFFFFFF gdtDplUser).word,
      (gdtEntry64 gdtTypeWritable 0 0xFFFFFFFF gdtDplUser).word,
      tssEntry % 2 ^ 64,
      tssEntry / 2 ^ 64]

structure InterruptDescriptor where
  offset0 : Nat
  segSelector : Nat
  ist : Nat
  attributes : Nat
  offset1 : Nat
  offset2 : Nat
  reserved : Nat
  deriving DecidableEq, Repr

def InterruptDescriptor.fields (d : InterruptDescriptor) : List Field :=
  [(16, d.offset0), (16, d.segSelector), (8, d.ist), (8, d.attributes), (16, d.offset1), (32, d.offset2),
    (32, d.reserved)]

def InterruptDescriptor.word (d : InterruptDescriptor) : Nat := pack d.fields

def setDescriptor (function flags : Nat) : InterruptDescriptor where
  offset0 := function &&& 0xffff
  segSelector := kernelCs
  attributes := flags
  offset1 := function >>> 16 &&& 0xffff
  offset2 := function >>> 32
  reserved := 0
  ist := 0

/-- What `lidt` is given: the limit and the descriptors of sixteen bytes each. -/
structure Idt where
  limit : Nat
  descriptors : List Nat
  deriving DecidableEq, Repr

/-- The function `setup_interrupts`. -/
def setupInterrupts (isrStubTable : Nat → Nat) : Idt where
  limit := 16 * 256 - 1
  descriptors := (List.range 256).map fun i =>
    (setDescriptor (isrStubTable i) (if i = 0x80 then 0xEE else 0x8E)).word

/-! ### What the CPU reads -/

/-- An entry of the GDT as the CPU takes it apart. -/
structure Segment where
  base : Nat
  limit : Nat
  type : Nat
  /-- A code or data segment, not one of the system. -/
  plain : Bool
  dpl : Nat
  present : Bool
  long : Bool
  deriving DecidableEq, Repr

def segment (word : Nat) : Segment where
  base := bits word 16 24 + 2 ^ 24 * bits word 56 8
  limit :=
    let limit := bits word 0 16 + 2 ^ 16 * bits word 48 4
    if bits word 55 1 = 1 then limit * 2 ^ 12 + (2 ^ 12 - 1) else limit
  type := bits word 40 4
  plain := decide (bits word 44 1 = 1)
  dpl := bits word 45 2
  present := decide (bits word 47 1 = 1)
  long := decide (bits word 53 1 = 1)

/-- The entry a selector names. The bits below its index are the privilege level it asks for and one
that would name a table which is not set up. -/
def Gdt.entry (gdt : Gdt) (selector : Nat) : Option Segment :=
  if bits selector 2 1 = 0 ∧ selector / 8 * 8 + 7 ≤ gdt.limit then gdt.entries[selector / 8]?.map segment
  else none

/-- The segment of a selector for code that only its own level may run. -/
def Gdt.code (gdt : Gdt) (selector : Nat) : Option Nat :=
  if selector / 4 = 0 then none
  else (gdt.entry selector).bind fun s =>
    if s.plain = true ∧ bits s.type 2 2 = 2 ∧ s.present = true ∧ s.long = true then some s.dpl else none

/-- The level of a selector for data that can be written. -/
def Gdt.stack (gdt : Gdt) (selector : Nat) : Option Nat :=
  if selector / 4 = 0 then none
  else (gdt.entry selector).bind fun s =>
    if s.plain = true ∧ bits s.type 3 1 = 0 ∧ bits s.type 1 1 = 1 ∧ s.present = true then some s.dpl else none

/-- Where `ltr` finds the TSS, and its last byte. -/
def Gdt.tss (gdt : Gdt) (selector : Nat) : Option (Nat × Nat) :=
  if bits selector 2 1 = 0 ∧ selector / 8 * 8 + 15 ≤ gdt.limit then do
    let s ← gdt.entry selector
    let high ← gdt.entries[selector / 8 + 1]?
    if s.plain = false ∧ s.type = 9 ∧ s.present = true then some (s.base + 2 ^ 32 * bits high 0 32, s.limit)
    else none
  else none

/-- A gate of the IDT as the CPU takes it apart. -/
structure Gate where
  offset : Nat
  selector : Nat
  ist : Nat
  type : Nat
  dpl : Nat
  present : Bool
  deriving DecidableEq, Repr

def gate (word : Nat) : Gate where
  offset := bits word 0 16 + 2 ^ 16 * bits word 48 16 + 2 ^ 32 * bits word 64 32
  selector := bits word 16 16
  ist := bits word 32 3
  type := bits word 40 5
  dpl := bits word 45 2
  present := decide (bits word 47 1 = 1)

def Idt.gate (idt : Idt) (vector : Nat) : Option Gate :=
  if vector * 16 + 15 ≤ idt.limit then idt.descriptors[vector]?.map Descriptors.gate else none

/-! ### They agree -/

/-- An entry as the CPU takes it apart, in the fields of the source. -/
theorem GdtEntry.segment_word (e : GdtEntry) : segment e.word =
    { base := e.baseLow % 2 ^ 16 + 2 ^ 16 * (e.baseMiddle % 2 ^ 8) + 2 ^ 24 * (e.baseHigh % 2 ^ 8)
      limit :=
        let limit := e.limitLow % 2 ^ 16 + 2 ^ 16 * (e.limit % 2 ^ 4)
        if e.gran % 2 ^ 1 = 1 then limit * 2 ^ 12 + (2 ^ 12 - 1) else limit
      type := e.type % 2 ^ 4
      plain := decide (e.desType % 2 ^ 1 = 1)
      dpl := e.dpl % 2 ^ 2
      present := decide (e.present % 2 ^ 1 = 1)
      long := decide (e.zero % 2 ^ 1 = 1) } := by
  have hlimit : bits e.word 0 16 = e.limitLow % 2 ^ 16 := bits_pack 0 rfl rfl
  have hbase : bits e.word 16 16 = e.baseLow % 2 ^ 16 := bits_pack 1 rfl rfl
  have hmiddle : bits e.word 32 8 = e.baseMiddle % 2 ^ 8 := bits_pack 2 rfl rfl
  have htype : bits e.word 40 4 = e.type % 2 ^ 4 := bits_pack 3 rfl rfl
  have hplain : bits e.word 44 1 = e.desType % 2 ^ 1 := bits_pack 4 rfl rfl
  have hdpl : bits e.word 45 2 = e.dpl % 2 ^ 2 := bits_pack 5 rfl rfl
  have hpresent : bits e.word 47 1 = e.present % 2 ^ 1 := bits_pack 6 rfl rfl
  have hhigh : bits e.word 48 4 = e.limit % 2 ^ 4 := bits_pack 7 rfl rfl
  have hlong : bits e.word 53 1 = e.zero % 2 ^ 1 := bits_pack 9 rfl rfl
  have hgran : bits e.word 55 1 = e.gran % 2 ^ 1 := bits_pack 11 rfl rfl
  have htop : bits e.word 56 8 = e.baseHigh % 2 ^ 8 := bits_pack 12 rfl rfl
  rw [segment, bits_add e.word 16 16 8, hlimit, hbase, hmiddle, htype, hplain, hdpl, hpresent, hhigh, hlong, hgran,
    htop]

/-- The CPU reads what `GDT_ENTRY64` was given; the last byte of the segment is that of its last page. -/
theorem gdtEntry64_segment {type base limit dpl : Nat} (htype : type < 2 ^ 4) (hbase : base < 2 ^ 32)
    (hlimit : limit < 2 ^ 32) (hdpl : dpl < 2 ^ 2) :
    segment (gdtEntry64 type base limit dpl).word =
      ⟨base, limit / 2 ^ 12 * 2 ^ 12 + (2 ^ 12 - 1), type, true, dpl, true, true⟩ := by
  have hmask : ∀ n : Nat, n &&& 0xffff = n % 2 ^ 16 := fun n => Nat.and_two_pow_sub_one_eq_mod n 16
  have hbyte : ∀ n : Nat, n &&& 0xff = n % 2 ^ 8 := fun n => Nat.and_two_pow_sub_one_eq_mod n 8
  rw [GdtEntry.segment_word]
  simp only [gdtEntry64, hmask, hbyte, Nat.shiftRight_eq_div_pow, Nat.mod_eq_of_lt htype, Nat.mod_eq_of_lt hdpl]
  have hbase' : base % 2 ^ 16 % 2 ^ 16 + 2 ^ 16 * (base / 2 ^ 16 % 2 ^ 8 % 2 ^ 8) +
      2 ^ 24 * (base / 2 ^ 24 % 2 ^ 8 % 2 ^ 8) = base := by omega
  have hlimit' : limit / 2 ^ 12 % 2 ^ 16 % 2 ^ 16 + 2 ^ 16 * (limit / 2 ^ 28 % 2 ^ 4) = limit / 2 ^ 12 := by omega
  rw [hbase', hlimit']
  rfl

theorem mask16 (n : Nat) : n &&& 0xffff = n % 2 ^ 16 := Nat.and_two_pow_sub_one_eq_mod n 16

theorem mask8 (n : Nat) : n &&& 0xff = n % 2 ^ 8 := Nat.and_two_pow_sub_one_eq_mod n 8

theorem mask4 (n : Nat) : n &&& 0xf = n % 2 ^ 4 := Nat.and_two_pow_sub_one_eq_mod n 4

theorem mask32 (n : Nat) : n &&& 0xffffffff = n % 2 ^ 32 := Nat.and_two_pow_sub_one_eq_mod n 32

/-- The lower half of the entry of a TSS. -/
def tssSegment (base limit : Nat) : Segment := ⟨base % 2 ^ 32, limit % 2 ^ 20, 9, false, 0, true, true⟩

theorem gdtTssEntry64_low (base limit : Nat) :
    segment ((gdtTssEntry64 base limit).word % 2 ^ 64) = tssSegment base limit := by
  generalize he : gdtTssEntry64 base limit = e
  have hlimit : bits e.word 0 16 = e.limit1 % 2 ^ 16 := bits_pack 0 rfl rfl
  have hbase : bits e.word 16 16 = e.base4 % 2 ^ 16 := bits_pack 1 rfl rfl
  have hmiddle : bits e.word 32 8 = e.base3 % 2 ^ 8 := bits_pack 2 rfl rfl
  have haccess : bits e.word 40 8 = e.access % 2 ^ 8 := bits_pack 3 rfl rfl
  have hhigh : bits e.word 48 4 = e.limit0 % 2 ^ 4 := bits_pack 4 rfl rfl
  have hflags : bits e.word 52 4 = e.flags % 2 ^ 4 := bits_pack 5 rfl rfl
  have htop : bits e.word 56 8 = e.base1 % 2 ^ 8 := bits_pack 6 rfl rfl
  -- the fields that lie inside the access byte and the flags
  have htype : bits e.word 40 4 = bits (bits e.word 40 8) 0 4 :=
    (bits_bits e.word 40 (show 0 + 4 ≤ 8 by decide)).symm
  have hplain : bits e.word 44 1 = bits (bits e.word 40 8) 4 1 :=
    (bits_bits e.word 40 (show 4 + 1 ≤ 8 by decide)).symm
  have hdpl : bits e.word 45 2 = bits (bits e.word 40 8) 5 2 :=
    (bits_bits e.word 40 (show 5 + 2 ≤ 8 by decide)).symm
  have hpresent : bits e.word 47 1 = bits (bits e.word 40 8) 7 1 :=
    (bits_bits e.word 40 (show 7 + 1 ≤ 8 by decide)).symm
  have hlong : bits e.word 53 1 = bits (bits e.word 52 4) 1 1 :=
    (bits_bits e.word 52 (show 1 + 1 ≤ 4 by decide)).symm
  have hgran : bits e.word 55 1 = bits (bits e.word 52 4) 3 1 :=
    (bits_bits e.word 52 (show 3 + 1 ≤ 4 by decide)).symm
  simp only [segment, bits_mod e.word (show 0 + 16 ≤ 64 by decide), bits_mod e.word (show 16 + 24 ≤ 64 by decide),
    bits_mod e.word (show 40 + 4 ≤ 64 by decide), bits_mod e.word (show 44 + 1 ≤ 64 by decide),
    bits_mod e.word (show 45 + 2 ≤ 64 by decide), bits_mod e.word (show 47 + 1 ≤ 64 by decide),
    bits_mod e.word (show 48 + 4 ≤ 64 by decide), bits_mod e.word (show 53 + 1 ≤ 64 by decide),
    bits_mod e.word (show 55 + 1 ≤ 64 by decide), bits_mod e.word (show 56 + 8 ≤ 64 by decide)]
  rw [bits_add e.word 16 16 8, htype, hplain, hdpl, hpresent, hlong, hgran, haccess, hflags, hlimit, hbase, hmiddle,
    hhigh, htop, ← he]
  simp only [gdtTssEntry64, mask16, mask8, mask4, Nat.shiftRight_eq_div_pow, tssSegment]
  have hbase' : base % 2 ^ 16 % 2 ^ 16 + 2 ^ 16 * (base / 2 ^ 16 % 2 ^ 8 % 2 ^ 8) +
      2 ^ 24 * (base / 2 ^ 24 % 2 ^ 8 % 2 ^ 8) = base % 2 ^ 32 := by omega
  have hlimit' : limit % 2 ^ 16 % 2 ^ 16 + 2 ^ 16 * (limit / 2 ^ 16 % 2 ^ 4 % 2 ^ 4) = limit % 2 ^ 20 := by omega
  rw [hbase', hlimit']
  rfl

/-- The upper half is the rest of the base. -/
theorem gdtTssEntry64_high (base limit : Nat) :
    (gdtTssEntry64 base limit).word / 2 ^ 64 = base / 2 ^ 32 % 2 ^ 32 := by
  have hsplit : (gdtTssEntry64 base limit).fields =
      (gdtTssEntry64 base limit).fields.take 7 ++ [(32, base >>> 32 &&& 0xffffffff), (32, 0)] := rfl
  have hlow := pack_lt ((gdtTssEntry64 base limit).fields.take 7)
  rw [LongGdtEntry.word, hsplit, pack_append]
  change pack _ < 2 ^ 64 at hlow
  change (pack _ + 2 ^ 64 * _) / _ = _
  rw [Nat.add_mul_div_left _ _ (Nat.two_pow_pos 64), Nat.div_eq_of_lt hlow, Nat.zero_add, mask32,
    Nat.shiftRight_eq_div_pow]
  simp only [pack]
  omega

/-! ### The tables -/

def codeSegment (dpl : Nat) : Segment := ⟨0, 0xFFFFFFFF, 10, true, dpl, true, true⟩

def dataSegment (dpl : Nat) : Segment := ⟨0, 0xFFFFFFFF, 2, true, dpl, true, true⟩

/-- What the CPU reads in the entries of `setup_gdt`. -/
def segments (tss : Nat) : List Segment :=
  [segment 0, codeSegment 0, dataSegment 0, codeSegment 3, dataSegment 3, tssSegment tss (tssSize - 1),
    segment (tss / 2 ^ 32 % 2 ^ 32)]

theorem setupGdt_segments (tss : Nat) : (setupGdt tss).entries.map segment = segments tss := by
  simp only [setupGdt, List.map_cons, List.map_nil, gdtTssEntry64_low, gdtTssEntry64_high]
  rw [gdtEntry64_segment (by decide) (by decide) (by decide) (by decide),
    gdtEntry64_segment (by decide) (by decide) (by decide) (by decide),
    gdtEntry64_segment (by decide) (by decide) (by decide) (by decide),
    gdtEntry64_segment (by decide) (by decide) (by decide) (by decide)]
  rfl

theorem setupGdt_entry (tss selector : Nat) : (setupGdt tss).entry selector =
    if bits selector 2 1 = 0 then (segments tss)[selector / 8]? else none := by
  have hlength : (setupGdt tss).entries.length = 7 := rfl
  have hlimit : (setupGdt tss).limit = 56 := rfl
  rw [← setupGdt_segments, List.getElem?_map, Gdt.entry]
  by_cases hbit : bits selector 2 1 = 0
  · by_cases hin : selector / 8 * 8 + 7 ≤ (setupGdt tss).limit
    · rw [if_pos ⟨hbit, hin⟩, if_pos hbit]
    · rw [if_neg (fun h => hin h.2), if_pos hbit, List.getElem?_eq_none (by omega), Option.map_none]
  · rw [if_neg (fun h => hbit h.1), if_neg hbit]

theorem bits_of_small {n lo : Nat} (w : Nat) (h : n < 2 ^ lo) : bits n lo w = 0 := by
  rw [bits, Nat.div_eq_of_lt h, Nat.zero_mod]

theorem high_not_plain (tss : Nat) : (segment (tss / 2 ^ 32 % 2 ^ 32)).plain = false := by
  have hlt : tss / 2 ^ 32 % 2 ^ 32 < 2 ^ 44 := (Nat.mod_lt _ (by norm_num)).trans (by norm_num)
  simp only [segment, bits_of_small 1 hlt]
  rfl

theorem selector_div (selector : Nat) : selector / 4 = 2 * (selector / 8) + bits selector 2 1 := by
  rw [bits]
  omega

theorem setupGdt_level (tss selector : Nat) (level : Segment → Option Nat) :
    ((setupGdt tss).entry selector).bind level =
      if bits selector 2 1 = 0 then ((segments tss).map level)[selector / 8]?.join else none := by
  rw [setupGdt_entry, List.getElem?_map]
  split_ifs
  · cases (segments tss)[selector / 8]? with
    | none => rfl
    | some s => rfl
  · rfl

/-- Code runs in ring 0 through one selector and in ring 3 through another, whatever the TSS's address. -/
theorem setupGdt_code (tss selector : Nat) : (setupGdt tss).code selector =
    if selector / 4 = kernelCs / 4 then some 0 else if selector / 4 = userCs / 4 then some 3 else none := by
  have hlevels : (segments tss).map (fun s => if s.plain = true ∧ bits s.type 2 2 = 2 ∧ s.present = true ∧
      s.long = true then some s.dpl else none) = [none, some 0, none, some 3, none, none, none] := by
    simp only [segments, List.map_cons, List.map_nil, high_not_plain]
    rfl
  rw [Gdt.code, setupGdt_level, hlevels, selector_div]
  have hbit := bits_lt selector 2 1
  generalize bits selector 2 1 = b at hbit
  simp only [show kernelCs / 4 = 2 from rfl, show userCs / 4 = 6 from rfl]
  rcases selector / 8 with _ | _ | _ | _ | _ | _ | _ | k
  all_goals interval_cases b
  all_goals simp
  all_goals omega

theorem setupGdt_stack (tss selector : Nat) : (setupGdt tss).stack selector =
    if selector / 4 = kernelDs / 4 then some 0 else if selector / 4 = userDs / 4 then some 3 else none := by
  have hlevels : (segments tss).map (fun s => if s.plain = true ∧ bits s.type 3 1 = 0 ∧ bits s.type 1 1 = 1 ∧
      s.present = true then some s.dpl else none) = [none, none, some 0, none, some 3, none, none] := by
    simp only [segments, List.map_cons, List.map_nil, high_not_plain]
    rfl
  rw [Gdt.stack, setupGdt_level, hlevels, selector_div]
  have hbit := bits_lt selector 2 1
  generalize bits selector 2 1 = b at hbit
  simp only [show kernelDs / 4 = 4 from rfl, show userDs / 4 = 8 from rfl]
  rcases selector / 8 with _ | _ | _ | _ | _ | _ | _ | k
  all_goals interval_cases b
  all_goals simp
  · rw [if_neg (by omega), if_neg (by omega)]
  · rw [if_neg (by omega), if_neg (by omega)]

theorem setupGdt_tss {tss : Nat} (h : tss < 2 ^ 64) : (setupGdt tss).tss gdtTss = some (tss, tssSize - 1) := by
  have hentry : (setupGdt tss).entry gdtTss = some (tssSegment tss (tssSize - 1)) := by
    rw [setupGdt_entry]
    rfl
  have hhigh : (setupGdt tss).entries[gdtTss / 8 + 1]? = some (tss / 2 ^ 32 % 2 ^ 32) :=
    congrArg some (gdtTssEntry64_high tss (tssSize - 1))
  have hbase : tss % 2 ^ 32 + 2 ^ 32 * bits (tss / 2 ^ 32 % 2 ^ 32) 0 32 = tss := by
    rw [bits_of_lt (Nat.mod_lt _ (by norm_num))]
    omega
  have hfits : bits gdtTss 2 1 = 0 ∧ gdtTss / 8 * 8 + 15 ≤ (setupGdt tss).limit :=
    ⟨rfl, show gdtTss / 8 * 8 + 15 ≤ 56 by decide⟩
  rw [Gdt.tss, if_pos hfits, hentry, hhigh]
  simp only [Option.bind_eq_bind, Option.bind_some, tssSegment, hbase]
  rfl

/-- The CPU finds each handler at its address; only vector 0x80 may be called from ring 3. -/
theorem setupInterrupts_gate {isrStubTable : Nat → Nat} {vector : Nat} (hvector : vector < 256)
    (hhandler : isrStubTable vector < 2 ^ 64) : (setupInterrupts isrStubTable).gate vector =
      some ⟨isrStubTable vector, kernelCs, 0, 14, if vector = 0x80 then 3 else 0, true⟩ := by
  generalize hflags : (if vector = 0x80 then 0xEE else 0x8E) = flags
  generalize hd : setDescriptor (isrStubTable vector) flags = d
  have hgate : (setupInterrupts isrStubTable).gate vector = some (gate d.word) := by
    have hlimit : vector * 16 + 15 ≤ (setupInterrupts isrStubTable).limit := by
      show vector * 16 + 15 ≤ 16 * 256 - 1
      omega
    rw [Idt.gate, if_pos hlimit, setupInterrupts, List.getElem?_map,
      List.getElem?_range hvector, Option.map_some, Option.map_some, hflags, hd]
  have hlow : bits d.word 0 16 = d.offset0 % 2 ^ 16 := bits_pack 0 rfl rfl
  have hsel : bits d.word 16 16 = d.segSelector % 2 ^ 16 := bits_pack 1 rfl rfl
  have hist : bits d.word 32 8 = d.ist % 2 ^ 8 := bits_pack 2 rfl rfl
  have hattr : bits d.word 40 8 = d.attributes % 2 ^ 8 := bits_pack 3 rfl rfl
  have hmid : bits d.word 48 16 = d.offset1 % 2 ^ 16 := bits_pack 4 rfl rfl
  have htop : bits d.word 64 32 = d.offset2 % 2 ^ 32 := bits_pack 5 rfl rfl
  have hist' : bits d.word 32 3 = bits (bits d.word 32 8) 0 3 :=
    (bits_bits d.word 32 (show 0 + 3 ≤ 8 by decide)).symm
  have htype : bits d.word 40 5 = bits (bits d.word 40 8) 0 5 :=
    (bits_bits d.word 40 (show 0 + 5 ≤ 8 by decide)).symm
  have hdpl : bits d.word 45 2 = bits (bits d.word 40 8) 5 2 :=
    (bits_bits d.word 40 (show 5 + 2 ≤ 8 by decide)).symm
  have hpresent : bits d.word 47 1 = bits (bits d.word 40 8) 7 1 :=
    (bits_bits d.word 40 (show 7 + 1 ≤ 8 by decide)).symm
  have hoffset : isrStubTable vector % 2 ^ 16 % 2 ^ 16 + 2 ^ 16 * (isrStubTable vector / 2 ^ 16 % 2 ^ 16 % 2 ^ 16) +
      2 ^ 32 * (isrStubTable vector / 2 ^ 32 % 2 ^ 32) = isrStubTable vector := by omega
  rw [hgate, gate, hist', htype, hdpl, hpresent, hlow, hsel, hist, hattr, hmid, htop, ← hd]
  simp only [setDescriptor, mask16, Nat.shiftRight_eq_div_pow, hoffset, ← hflags]
  split_ifs
  · rfl
  · rfl

end Lucix.Descriptors
