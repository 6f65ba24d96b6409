import Mathlib.Data.List.TakeWhile
import Lucix.Positional
import Lucix.PrintkText

/-! The formats that `_vsnprintf` reads: characters and directives, each of a directive's fields as long
as its first bytes allow, and the text that they stand for. -/
namespace Lucix.Printk
open Positional

/-! ### Fields -/

/-- The bytes do not begin with such a byte. -/
def Stops (p : UInt8 → Bool) (s : List UInt8) : Prop := ∀ c ∈ s.head?, p c = false

instance (p : UInt8 → Bool) (s : List UInt8) : Decidable (Stops p s) :=
  decidable_of_iff (s.head?.all fun c => !p c) (by cases s <;> simp [Stops])

def isFlag (c : UInt8) : Bool := (setFlag c {}).isSome

/-- A width or a precision. -/
inductive Field where
  | absent
  | digits (ds : List UInt8)
  | star
  deriving DecidableEq, Repr

def Field.bytes : Field → List UInt8
  | absent => []
  | digits ds => ds
  | star => ['*'.toUInt8]

/-- In front of these bytes the field is read to its end. -/
def Field.Ends : Field → List UInt8 → Prop
  | absent, rest => Stops (fun c => isDigit c || c = '*'.toUInt8) rest
  | digits ds, rest => ds ≠ [] ∧ (∀ c ∈ ds, isDigit c = true) ∧ Stops isDigit rest
  | star, _ => True

instance (f : Field) (rest : List UInt8) : Decidable (f.Ends rest) :=
  match f with
  | .absent => inferInstanceAs (Decidable (Stops _ rest))
  | .digits _ => inferInstanceAs (Decidable (_ ∧ _ ∧ _))
  | .star => inferInstanceAs (Decidable True)

/-- In front of these bytes a precision, or its absence, is read to its end. -/
def Field.PrecisionEnds (rest : List UInt8) : Option Field → Prop
  | none => Stops (· = '.'.toUInt8) rest
  | some f => f.Ends rest

instance (rest : List UInt8) (f : Option Field) : Decidable (Field.PrecisionEnds rest f) :=
  match f with
  | none => inferInstanceAs (Decidable (Stops _ rest))
  | some f => inferInstanceAs (Decidable (f.Ends rest))

def decimal (ds : List UInt8) : Nat := value 10 (ds.map fun c => c.toNat - '0'.toUInt8.toNat)

section arguments
variable {δ : Type*}

def Field.value (va : List (Arg δ)) : Field → Option (Int × List (Arg δ))
  | absent => some (0, va)
  | digits ds => some (((decimal ds % 2 ^ 32 : Nat) : Int), va)
  | star => vaInt va

/-- A negative width is a width that is filled from the left. -/
def Field.width (flags : Flags) (va : List (Arg δ)) (f : Field) : Option (Flags × Nat × List (Arg δ)) :=
  (f.value va).bind fun (w, va) =>
    if w < 0 then (magnitude 32 w).map fun width => ({ flags with left := true }, width, va)
    else some (flags, w.toNat, va)

def Field.precision (flags : Flags) (va : List (Arg δ)) : Option Field → Option (Flags × Nat × List (Arg δ))
  | none => some (flags, 0, va)
  | some f => (f.value va).map fun (p, va) => ({ flags with precision := true }, p.toNat, va)

end arguments

inductive Length where
  | absent
  | l
  | ll
  | h
  | hh
  | t
  | j
  | z
  deriving DecidableEq, Repr

def Length.bytes : Length → List UInt8
  | absent => []
  | l => ['l'.toUInt8]
  | ll => ['l'.toUInt8, 'l'.toUInt8]
  | h => ['h'.toUInt8]
  | hh => ['h'.toUInt8, 'h'.toUInt8]
  | t => ['t'.toUInt8]
  | j => ['j'.toUInt8]
  | z => ['z'.toUInt8]

def Length.set (flags : Flags) : Length → Flags
  | absent => flags
  | l => { flags with long := true }
  | ll => { flags with long := true, longLong := true }
  | h => { flags with short := true }
  | hh => { flags with short := true, char := true }
  | t => { flags with long := true }
  | j => { flags with long := true }
  | z => { flags with long := true }

/-- In front of this byte the length is read to its end. -/
def Length.Ends (spec : UInt8) : Length → Prop
  | absent => spec ∉ ['l', 'h', 't', 'j', 'z'].map Char.toUInt8
  | l => spec ≠ 'l'.toUInt8
  | h => spec ≠ 'h'.toUInt8
  | _ => True

instance (spec : UInt8) (len : Length) : Decidable (len.Ends spec) :=
  match len with
  | .absent => inferInstanceAs (Decidable (spec ∉ _))
  | .l => inferInstanceAs (Decidable (spec ≠ _))
  | .h => inferInstanceAs (Decidable (spec ≠ _))
  | .ll | .hh | .t | .j | .z => inferInstanceAs (Decidable True)

/-! ### Directives -/

structure Directive where
  flags : List UInt8
  width : Field
  precision : Option Field
  length : Length
  spec : UInt8
  deriving DecidableEq, Repr

namespace Directive

def lengthBytes (d : Directive) : List UInt8 := d.length.bytes ++ [d.spec]

def precisionBytes (d : Directive) : List UInt8 :=
  (d.precision.elim [] fun f => '.'.toUInt8 :: f.bytes) ++ d.lengthBytes

def widthBytes (d : Directive) : List UInt8 := d.width.bytes ++ d.precisionBytes

/-- The bytes behind the `%`. -/
def bytes (d : Directive) : List UInt8 := d.flags ++ d.widthBytes

/-- Each field is read to its end. -/
structure Readable (d : Directive) : Prop where
  flags : ∀ c ∈ d.flags, isFlag c = true
  flagsEnd : Stops isFlag d.widthBytes
  width : d.width.Ends d.precisionBytes
  precision : Field.PrecisionEnds d.lengthBytes d.precision
  length : d.length.Ends d.spec

theorem readable_iff (d : Directive) : d.flags.all isFlag = true ∧ Stops isFlag d.widthBytes ∧
    d.width.Ends d.precisionBytes ∧ Field.PrecisionEnds d.lengthBytes d.precision ∧ d.length.Ends d.spec ↔
      d.Readable := by
  rw [List.all_eq_true]
  constructor
  · rintro ⟨hflags, hend, hwidth, hprecision, hlength⟩
    exact ⟨hflags, hend, hwidth, hprecision, hlength⟩
  · rintro ⟨hflags, hend, hwidth, hprecision, hlength⟩
    exact ⟨hflags, hend, hwidth, hprecision, hlength⟩

instance (d : Directive) : Decidable d.Readable := decidable_of_iff _ d.readable_iff

/-- The text that the directive stands for, and the arguments behind its own. -/
def convert {δ : Type*} (floats : FloatOutput δ) (mem : Nat → List UInt8) (va : List (Arg δ)) (d : Directive) :
    Option (List UInt8 × List (Arg δ)) :=
  let flags := d.flags.foldl (fun flags c => (setFlag c flags).getD flags) {}
  (d.width.width flags va).bind fun (flags, width, va) =>
    (Field.precision flags va d.precision).bind fun (flags, precision, va) =>
      specifierText floats mem d.spec (d.length.set flags) width precision va

end Directive

section stops
variable {p : UInt8 → Bool} {s s' : List UInt8}

theorem stops_append (h : s ≠ []) : Stops p (s ++ s') ↔ Stops p s := by
  cases s with
  | nil => contradiction
  | cons c s => exact Iff.rfl

theorem stops_cons {c : UInt8} : Stops p (c :: s) ↔ p c = false := by
  simp [Stops]

theorem setFlag_eq_none {c : UInt8} {flags : Flags} : setFlag c flags = none ↔ isFlag c = false := by
  unfold isFlag setFlag
  split_ifs <;> simp

theorem setFlag_isSome {c : UInt8} {flags : Flags} : isFlag c = true ↔ ∃ flags', setFlag c flags = some flags' := by
  unfold isFlag setFlag
  split_ifs <;> simp

theorem exists_stops {c : UInt8} (hc : p c = false) (h : c ∈ s) :
    ∃ ds rest, s = ds ++ rest ∧ (∀ d ∈ ds, p d = true) ∧ c ∈ rest ∧ Stops p rest := by
  refine ⟨s.takeWhile p, s.dropWhile p, (List.takeWhile_append_dropWhile ..).symm,
    fun d hd => List.mem_takeWhile_imp hd, ?_, ?_⟩
  · have hmem : c ∈ s.takeWhile p ++ s.dropWhile p := by rwa [List.takeWhile_append_dropWhile]
    rcases List.mem_append.mp hmem with htake | hdrop
    · have := List.mem_takeWhile_imp htake
      rw [hc] at this
      contradiction
    · exact hdrop
  · intro d hd
    have := List.head?_dropWhile_not p s
    rw [Option.mem_def.mp hd] at this
    simpa using this

theorem Field.ends_append {f : Field} (h : s ≠ []) : f.Ends (s ++ s') ↔ f.Ends s := by
  cases f with
  | absent => exact stops_append h
  | digits ds => exact and_congr_right fun _ => and_congr_right fun _ => stops_append h
  | star => exact Iff.rfl

theorem Field.precisionEnds_append {f : Option Field} (h : s ≠ []) :
    PrecisionEnds (s ++ s') f ↔ PrecisionEnds s f := by
  cases f with
  | none => exact stops_append h
  | some f => exact ends_append h

end stops

/-! ### The parser reads what is spelled -/

section fields
variable {δ : Type*} {s : List UInt8} {flags : Flags} {va : List (Arg δ)}

theorem evalFlags_eq {fs : List UInt8} (hfs : ∀ c ∈ fs, isFlag c = true) (hs : Stops isFlag s) (hne : s ≠ []) :
    evalFlags (fs ++ s) flags = some (fs.foldl (fun flags c => (setFlag c flags).getD flags) flags, s) := by
  induction fs generalizing flags with
  | nil =>
      obtain ⟨c, s, rfl⟩ := List.exists_cons_of_ne_nil hne
      have hstop : setFlag c flags = none := setFlag_eq_none.mpr (stops_cons.mp hs)
      rw [List.nil_append, evalFlags, hstop]
      rfl
  | cons c fs ih =>
      obtain ⟨flags', hset⟩ := setFlag_isSome.mp (hfs c List.mem_cons_self)
      rw [List.cons_append, evalFlags, hset, List.foldl_cons, hset]
      exact ih fun c hc => hfs c (List.mem_cons_of_mem _ hc)

theorem atoiLoop_eq {ds : List UInt8} (hds : ∀ c ∈ ds, isDigit c = true) (hs : Stops isDigit s) (hne : s ≠ [])
    (i : Nat) : atoiLoop (ds ++ s) (i % 2 ^ 32) =
      some (valueFrom 10 i (ds.map fun c => c.toNat - '0'.toUInt8.toNat) % 2 ^ 32, s) := by
  induction ds generalizing i with
  | nil =>
      obtain ⟨c, s, rfl⟩ := List.exists_cons_of_ne_nil hne
      rw [List.nil_append, atoiLoop, stops_cons.mp hs]
      rfl
  | cons c ds ih =>
      rw [List.cons_append, atoiLoop, if_pos (hds c List.mem_cons_self), List.map_cons, valueFrom_cons,
        ← ih fun c hc => hds c (List.mem_cons_of_mem _ hc)]
      congr 1
      omega

theorem atoi_eq {ds : List UInt8} (hds : ∀ c ∈ ds, isDigit c = true) (hs : Stops isDigit s) (hne : s ≠ []) :
    atoi (ds ++ s) = some (decimal ds % 2 ^ 32, s) := atoiLoop_eq hds hs hne 0

theorem evalWidth_eq {f : Field} (hf : f.Ends s) (hne : s ≠ []) :
    evalWidth flags (f.bytes ++ s) va =
      (f.width flags va).map fun (flags, width, va) => (flags, width, s, va) := by
  cases f with
  | absent =>
      obtain ⟨c, s, rfl⟩ := List.exists_cons_of_ne_nil hne
      have hstop := stops_cons.mp hf
      simp only [Bool.or_eq_false_iff, decide_eq_false_iff_not] at hstop
      simp [Field.bytes, evalWidth, hstop, Field.width, Field.value]
  | digits ds =>
      obtain ⟨hds, hall, hstop⟩ := hf
      obtain ⟨c, ds, rfl⟩ := List.exists_cons_of_ne_nil hds
      rw [Field.bytes, List.cons_append, evalWidth, if_pos (hall c List.mem_cons_self), ← List.cons_append,
        atoi_eq hall hstop hne]
      rfl
  | star =>
      rw [Field.bytes, List.singleton_append, evalWidth, if_neg (by decide), if_pos rfl, Field.width, Field.value,
        Option.map_bind]
      congr 1
      funext r
      dsimp only [Function.comp]
      split_ifs
      · rw [Option.map_map]
        rfl
      · rfl

theorem evalPrecision_eq {f : Option Field} (hne : s ≠ [])
    (hf : Field.PrecisionEnds s f) :
    evalPrecision flags ((f.elim [] fun f => '.'.toUInt8 :: f.bytes) ++ s) va =
      (Field.precision flags va f).map fun (flags, precision, va) => (flags, precision, s, va) := by
  cases f with
  | none =>
      obtain ⟨c, s, rfl⟩ := List.exists_cons_of_ne_nil hne
      have hstop := stops_cons.mp hf
      simp only [decide_eq_false_iff_not] at hstop
      simp [evalPrecision, hstop, Field.precision]
  | some f =>
      rw [Option.elim_some, List.cons_append, evalPrecision, if_pos rfl]
      cases f with
      | absent =>
          obtain ⟨c, s, rfl⟩ := List.exists_cons_of_ne_nil hne
          have hstop := stops_cons.mp hf
          simp only [Bool.or_eq_false_iff, decide_eq_false_iff_not] at hstop
          simp [Field.bytes, hstop, Field.precision, Field.value]
      | digits ds =>
          obtain ⟨hds, hall, hstop⟩ := hf
          obtain ⟨c, ds, rfl⟩ := List.exists_cons_of_ne_nil hds
          simp only [Field.bytes, List.cons_append]
          rw [if_pos (hall c List.mem_cons_self), ← List.cons_append, atoi_eq hall hstop hne]
          rfl
      | star =>
          simp only [Field.bytes, List.singleton_append]
          rw [if_neg (by decide), if_pos trivial, Field.precision, Field.value, Option.map_map]
          congr 1
          funext r
          dsimp only [Function.comp]
          split_ifs with hpos
          · rfl
          · rw [Int.toNat_of_nonpos (Int.not_lt.mp hpos)]

theorem evalLength_eq {len : Length} {spec : UInt8} (hl : len.Ends spec) :
    evalLength flags (len.bytes ++ spec :: s) = some (len.set flags, spec :: s) := by
  cases len with
  | absent =>
      simp only [Length.Ends, List.map_cons, List.map_nil, List.mem_cons, List.not_mem_nil, or_false, not_or] at hl
      simp [Length.bytes, evalLength, hl, Length.set]
  | l =>
      have hspec : spec ≠ 'l'.toUInt8 := hl
      simp [Length.bytes, evalLength, hspec, Length.set]
  | h =>
      have hspec : spec ≠ 'h'.toUInt8 := hl
      rw [Length.bytes, List.singleton_append, evalLength, if_neg (by decide), if_pos rfl]
      simp only [hspec, if_false]
      rfl
  | ll => rfl
  | hh => rfl
  | t => rfl
  | j => rfl
  | z => rfl

end fields

/-! ### Directives are read as they are spelled -/

section directives
variable {δ σ : Type*} {floats : FloatOutput δ} {mem : Nat → List UInt8} {out : OutFct σ} {d : Directive}

theorem vaInt_bounds {va va' : List (Arg δ)} {w : Int} (h : vaInt va = some (w, va')) :
    -2 ^ 31 ≤ w ∧ w < 2 ^ 31 := by
  obtain ⟨r, -, heq⟩ := Option.map_eq_some_iff.mp h
  rw [← (Prod.mk.inj heq).1]
  exact ⟨Int.le_bmod (by norm_num), Int.bmod_lt (by norm_num)⟩

theorem magnitude_lt {w : Int} {n : Nat} (hw : -2 ^ 31 ≤ w ∧ w < 2 ^ 31) (h : magnitude 32 w = some n) :
    n < 2 ^ 31 := by
  unfold magnitude at h
  split_ifs at h with hmin
  have hn := Option.some.inj h
  omega

theorem Field.width_lt {f : Field} {flags flags' : Flags} {va va' : List (Arg δ)} {w : Nat}
    (h : f.width flags va = some (flags', w, va')) : w < 2 ^ 32 := by
  obtain ⟨⟨v, va₁⟩, hvalue, h⟩ := Option.bind_eq_some_iff.mp h
  have hv : -2 ^ 31 ≤ v ∧ v < 2 ^ 32 := by
    cases f with
    | absent =>
        rw [← (Prod.mk.inj (Option.some.inj hvalue)).1]
        decide
    | digits ds =>
        rw [← (Prod.mk.inj (Option.some.inj hvalue)).1]
        omega
    | star =>
        obtain ⟨hlo, hhi⟩ := vaInt_bounds hvalue
        omega
  dsimp only at h
  split_ifs at h with hneg
  · obtain ⟨n, hn, heq⟩ := Option.map_eq_some_iff.mp h
    have hlt := magnitude_lt ⟨hv.1, by omega⟩ hn
    simp only [Prod.mk.injEq] at heq
    omega
  · simp only [Option.some.injEq, Prod.mk.injEq] at h
    omega

theorem Directive.lengthBytes_ne_nil (d : Directive) : d.lengthBytes ≠ [] := by simp [lengthBytes]

theorem Directive.precisionBytes_ne_nil (d : Directive) : d.precisionBytes ≠ [] := by
  simp [precisionBytes, d.lengthBytes_ne_nil]

theorem Directive.widthBytes_ne_nil (d : Directive) : d.widthBytes ≠ [] := by
  simp [widthBytes, d.precisionBytes_ne_nil]

/-- In front of any bytes the directive is read to its end and no further. -/
theorem directive_eq (hd : d.Readable) (rest : List UInt8) (va : List (Arg δ)) (dest : UInt64 × σ) :
    directive floats mem out (d.bytes ++ rest) va dest =
      (d.convert floats mem va).map fun (text, va) => (rest, va, send out text dest) := by
  have hwidth : d.widthBytes ++ rest ≠ [] := List.append_ne_nil_of_left_ne_nil d.widthBytes_ne_nil rest
  have hprecision : d.precisionBytes ++ rest ≠ [] := List.append_ne_nil_of_left_ne_nil d.precisionBytes_ne_nil rest
  have hlength : d.lengthBytes ++ rest ≠ [] := List.append_ne_nil_of_left_ne_nil d.lengthBytes_ne_nil rest
  unfold directive Directive.convert
  rw [Directive.bytes, List.append_assoc,
    evalFlags_eq hd.flags ((stops_append d.widthBytes_ne_nil).mpr hd.flagsEnd) hwidth, Option.bind_some]
  dsimp only
  rw [Directive.widthBytes, List.append_assoc,
    evalWidth_eq ((Field.ends_append d.precisionBytes_ne_nil).mpr hd.width) hprecision, Option.bind_map,
    Option.map_bind]
  refine Option.bind_congr fun r hr => ?_
  obtain ⟨flags, width, va⟩ := r
  dsimp only [Function.comp]
  rw [Directive.precisionBytes, List.append_assoc, evalPrecision_eq hlength
    ((Field.precisionEnds_append d.lengthBytes_ne_nil).mpr hd.precision), Option.bind_map, Option.map_bind]
  congr 1
  funext r
  obtain ⟨flags, precision, va⟩ := r
  dsimp only [Function.comp]
  rw [Directive.lengthBytes, List.append_assoc, List.singleton_append, evalLength_eq hd.length, Option.bind_some]
  dsimp only
  rw [evalSpecifier_eq ((Field.width_lt hr).trans (by norm_num)), Option.map_map]
  rfl

end directives

/-! ### Every format is spelled in directives -/

section decomposition
variable {s : List UInt8}

theorem exists_field (h : 0 ∈ s) :
    ∃ (f : Field) (rest : List UInt8), s = f.bytes ++ rest ∧ 0 ∈ rest ∧ f.Ends rest := by
  obtain ⟨ds, rest, rfl, hds, hzero, hstop⟩ := exists_stops (p := isDigit) (by decide) h
  by_cases hnil : ds = []
  · subst hnil
    obtain ⟨c, rest, rfl⟩ := List.exists_cons_of_ne_nil (List.ne_nil_of_mem hzero)
    by_cases hstar : c = '*'.toUInt8
    · have hrest : 0 ∈ rest := (List.mem_cons.mp hzero).resolve_left (by rw [hstar]; decide)
      exact ⟨.star, rest, by rw [hstar]; rfl, hrest, trivial⟩
    · refine ⟨.absent, c :: rest, rfl, hzero, stops_cons.mpr ?_⟩
      rw [stops_cons.mp hstop, Bool.false_or, decide_eq_false hstar]
  · exact ⟨.digits ds, rest, rfl, hzero, hnil, hds, hstop⟩

theorem exists_length (h : 0 ∈ s) :
    ∃ (len : Length) (spec : UInt8) (rest : List UInt8), s = len.bytes ++ spec :: rest ∧ len.Ends spec := by
  obtain ⟨c, s, rfl⟩ := List.exists_cons_of_ne_nil (List.ne_nil_of_mem h)
  -- one more byte follows a letter, because the terminator is none
  have hmore : c ≠ 0 → ∃ c' s', s = c' :: s' :=
    fun hc => List.exists_cons_of_ne_nil (List.ne_nil_of_mem ((List.mem_cons.mp h).resolve_left (Ne.symm hc)))
  by_cases hl : c = 'l'.toUInt8
  · obtain ⟨c', s', rfl⟩ := hmore (by rw [hl]; decide)
    subst hl
    by_cases hll : c' = 'l'.toUInt8
    · subst hll
      have hin : 0 ∈ s' := by
        have : (0 : UInt8) ≠ 'l'.toUInt8 := by decide
        simpa [this] using h
      obtain ⟨c, s', rfl⟩ := List.exists_cons_of_ne_nil (List.ne_nil_of_mem hin)
      exact ⟨.ll, c, s', rfl, trivial⟩
    · exact ⟨.l, c', s', rfl, hll⟩
  by_cases hh : c = 'h'.toUInt8
  · obtain ⟨c', s', rfl⟩ := hmore (by rw [hh]; decide)
    subst hh
    by_cases hhh : c' = 'h'.toUInt8
    · subst hhh
      have hin : 0 ∈ s' := by
        have : (0 : UInt8) ≠ 'h'.toUInt8 := by decide
        simpa [this] using h
      obtain ⟨c, s', rfl⟩ := List.exists_cons_of_ne_nil (List.ne_nil_of_mem hin)
      exact ⟨.hh, c, s', rfl, trivial⟩
    · exact ⟨.h, c', s', rfl, hhh⟩
  by_cases ht : c = 't'.toUInt8
  · obtain ⟨c', s', rfl⟩ := hmore (by rw [ht]; decide)
    exact ⟨.t, c', s', by rw [ht]; rfl, trivial⟩
  by_cases hj : c = 'j'.toUInt8
  · obtain ⟨c', s', rfl⟩ := hmore (by rw [hj]; decide)
    exact ⟨.j, c', s', by rw [hj]; rfl, trivial⟩
  by_cases hz : c = 'z'.toUInt8
  · obtain ⟨c', s', rfl⟩ := hmore (by rw [hz]; decide)
    exact ⟨.z, c', s', by rw [hz]; rfl, trivial⟩
  refine ⟨.absent, c, s, rfl, ?_⟩
  simp [Length.Ends, hl, hh, ht, hj, hz]

theorem exists_precision (h : 0 ∈ s) : ∃ (f : Option Field) (rest : List UInt8),
    s = (f.elim [] fun f => '.'.toUInt8 :: f.bytes) ++ rest ∧ 0 ∈ rest ∧
      Field.PrecisionEnds rest f := by
  obtain ⟨c, s, rfl⟩ := List.exists_cons_of_ne_nil (List.ne_nil_of_mem h)
  by_cases hdot : c = '.'.toUInt8
  · have hin : 0 ∈ s := (List.mem_cons.mp h).resolve_left (by rw [hdot]; decide)
    obtain ⟨f, rest, rfl, hzero, hends⟩ := exists_field hin
    exact ⟨some f, rest, by rw [hdot]; rfl, hzero, hends⟩
  · exact ⟨none, c :: s, rfl, h, stops_cons.mpr (decide_eq_false hdot)⟩

/-- In front of a terminator some directive is read, if only one that takes the terminator. -/
theorem exists_directive (h : 0 ∈ s) : ∃ (d : Directive) (rest : List UInt8), d.Readable ∧ s = d.bytes ++ rest := by
  obtain ⟨flags, rest₁, rfl, hflags, hzero₁, hflagsEnd⟩ := exists_stops (p := isFlag) (by decide) h
  obtain ⟨width, rest₂, rfl, hzero₂, hwidth⟩ := exists_field hzero₁
  obtain ⟨precision, rest₃, rfl, hzero₃, hprecision⟩ := exists_precision hzero₂
  obtain ⟨length, spec, rest, rfl, hlength⟩ := exists_length hzero₃
  let d : Directive := ⟨flags, width, precision, length, spec⟩
  have hbytes₃ : length.bytes ++ spec :: rest = d.lengthBytes ++ rest := by
    simp [d, Directive.lengthBytes]
  have hbytes₂ : (precision.elim [] fun f => '.'.toUInt8 :: f.bytes) ++ (length.bytes ++ spec :: rest) =
      d.precisionBytes ++ rest := by
    rw [hbytes₃, Directive.precisionBytes, List.append_assoc]
  have hbytes₁ : width.bytes ++ ((precision.elim [] fun f => '.'.toUInt8 :: f.bytes) ++
      (length.bytes ++ spec :: rest)) = d.widthBytes ++ rest := by
    rw [hbytes₂, Directive.widthBytes, List.append_assoc]
  rw [hbytes₁] at hflagsEnd
  rw [hbytes₂] at hwidth
  rw [hbytes₃] at hprecision
  refine ⟨d, rest, ⟨hflags, ?_, ?_, ?_, hlength⟩, ?_⟩
  · exact (stops_append d.widthBytes_ne_nil).mp hflagsEnd
  · exact (Field.ends_append d.precisionBytes_ne_nil).mp hwidth
  · exact (Field.precisionEnds_append d.lengthBytes_ne_nil).mp hprecision
  · rw [hbytes₁, Directive.bytes, List.append_assoc]

end decomposition

/-! ### Formats -/

/-- A part of a format: a character that stands for itself, or a directive. -/
inductive Piece where
  | char (c : UInt8)
  | directive (d : Directive)
  deriving DecidableEq, Repr

namespace Piece

def bytes : Piece → List UInt8
  | char c => [c]
  | directive d => '%'.toUInt8 :: d.bytes

def WellFormed : Piece → Prop
  | char c => c ≠ 0 ∧ c ≠ '%'.toUInt8
  | directive d => d.Readable ∧ d.spec ≠ 0

instance (p : Piece) : Decidable p.WellFormed :=
  match p with
  | .char _ => inferInstanceAs (Decidable (_ ∧ _))
  | .directive _ => inferInstanceAs (Decidable (_ ∧ _))

end Piece

def spell (ps : List Piece) : List UInt8 := ps.flatMap Piece.bytes

/-- The text of a format, where the arguments are there and of the types that the directives take. -/
def render {δ : Type*} (floats : FloatOutput δ) (mem : Nat → List UInt8) :
    List Piece → List (Arg δ) → Option (List UInt8)
  | [], _ => some []
  | .char c :: ps, va => (render floats mem ps va).map (c :: ·)
  | .directive d :: ps, va =>
      (d.convert floats mem va).bind fun (text, va) => (render floats mem ps va).map (text ++ ·)

section formats
variable {δ σ : Type*} {floats : FloatOutput δ} {mem : Nat → List UInt8} {out : OutFct σ}

theorem Directive.bytes_ne_nil (d : Directive) : d.bytes ≠ [] := by simp [bytes, d.widthBytes_ne_nil]

theorem Directive.spec_mem (d : Directive) : d.spec ∈ d.bytes := by
  simp [bytes, widthBytes, precisionBytes, lengthBytes]

/-- The loop sends the text of the parts and stops at the terminator. -/
theorem vsnprintfLoop_spell {ps : List Piece} (hps : ∀ p ∈ ps, p.WellFormed) {fuel : Nat}
    (hfuel : (spell ps).length < fuel) (va : List (Arg δ)) (dest : UInt64 × σ) :
    vsnprintfLoop floats mem out fuel (spell ps ++ [0]) va dest =
      (render floats mem ps va).map fun text => send out text dest := by
  induction ps generalizing fuel va dest with
  | nil =>
      obtain ⟨fuel, rfl⟩ := Nat.exists_eq_succ_of_ne_zero (Nat.ne_zero_of_lt hfuel)
      rfl
  | cons p ps ih =>
      obtain ⟨fuel, rfl⟩ := Nat.exists_eq_succ_of_ne_zero (Nat.ne_zero_of_lt hfuel)
      have hp := hps p List.mem_cons_self
      have hrest : ∀ p ∈ ps, p.WellFormed := fun p hp => hps p (List.mem_cons_of_mem _ hp)
      rw [spell, List.flatMap_cons, List.length_append] at hfuel
      change (p.bytes).length + (spell ps).length < fuel + 1 at hfuel
      change vsnprintfLoop floats mem out (fuel + 1) ((p.bytes ++ spell ps) ++ [0]) va dest = _
      rw [List.append_assoc]
      cases p with
      | char c =>
          simp only [Piece.bytes, List.length_singleton] at hfuel
          rw [Piece.bytes, List.singleton_append, vsnprintfLoop, if_neg hp.1, if_pos hp.2,
            ih hrest (by omega), render, Option.map_map]
          rfl
      | directive d =>
          simp only [Piece.bytes, List.length_cons] at hfuel
          have hpos := List.length_pos_iff.mpr d.bytes_ne_nil
          rw [Piece.bytes, List.cons_append, vsnprintfLoop, if_neg (by decide), if_neg (by simp), directive_eq hp.1,
            Option.bind_map, render, Option.map_bind]
          congr 1
          funext r
          dsimp only [Function.comp]
          rw [ih hrest (by omega), Option.map_map]
          congr 1
          funext text
          exact (send_append dest).symm

/-- A format that the loop reads without leaving it is spelled in parts. -/
theorem exists_spell {format : List UInt8} (hformat : 0 ∉ format) {fuel : Nat} {va : List (Arg δ)}
    {dest dest' : UInt64 × σ} (h : vsnprintfLoop floats mem out fuel (format ++ [0]) va dest = some dest') :
    ∃ ps : List Piece, (∀ p ∈ ps, p.WellFormed) ∧ spell ps = format := by
  induction fuel generalizing format va dest with
  | zero => contradiction
  | succ fuel ih =>
      cases format with
      | nil => exact ⟨[], by simp, rfl⟩
      | cons c format =>
          obtain ⟨hc, hrest⟩ := not_or.mp fun hor => hformat (List.mem_cons.mpr hor)
          rw [List.cons_append, vsnprintfLoop, if_neg (Ne.symm hc)] at h
          split_ifs at h with hpercent
          · obtain ⟨ps, hps, rfl⟩ := ih hrest h
            refine ⟨.char c :: ps, ?_, rfl⟩
            simp only [List.mem_cons, forall_eq_or_imp]
            exact ⟨⟨Ne.symm hc, hpercent⟩, hps⟩
          · obtain ⟨d, rest, hd, hbytes⟩ := exists_directive (s := format ++ [0]) (by simp)
            rw [hbytes, directive_eq hd, Option.bind_map] at h
            obtain ⟨⟨text, va'⟩, -, hloop⟩ := Option.bind_eq_some_iff.mp h
            dsimp only [Function.comp] at hloop
            rcases List.eq_nil_or_concat rest with rfl | ⟨rest, b, rfl⟩
            · -- the directive took the terminator
              cases fuel with
              | zero => contradiction
              | succ fuel => contradiction
            · rw [List.concat_eq_append, ← List.append_assoc] at hbytes
              obtain ⟨rfl, hzero⟩ := List.append_inj' hbytes rfl
              rw [List.concat_eq_append, ← hzero] at hloop
              rw [List.mem_append, not_or] at hrest
              obtain ⟨ps, hps, rfl⟩ := ih hrest.2 hloop
              refine ⟨.directive d :: ps, ?_, ?_⟩
              · simp only [List.mem_cons, forall_eq_or_imp]
                refine ⟨⟨hd, ?_⟩, hps⟩
                intro hspec
                exact hrest.1 (hspec ▸ d.spec_mem)
              · rw [not_not.mp hpercent]
                rfl

theorem toInt32_mod (n : Nat) : toInt32 (n % 2 ^ 64) = toInt32 n := by
  have hmod : ((n % 2 ^ 64 : Nat) : Int) % (2 ^ 32 : Nat) = (n : Int) % (2 ^ 32 : Nat) := by
    have : n % 2 ^ 64 % 2 ^ 32 = n % 2 ^ 32 := Nat.mod_mod_of_dvd n (by norm_num)
    exact_mod_cast this
  exact (Int.emod_bmod _ _).symm.trans ((congrArg (fun r => Int.bmod r (2 ^ 32)) hmod).trans (Int.emod_bmod _ _))

theorem toInt32_ofNat (n : Nat) : toInt32 (UInt64.ofNat n).toNat = toInt32 n :=
  (congrArg toInt32 UInt64.toNat_ofNat').trans (toInt32_mod n)

/-- What `_vsnprintf` leaves behind a text. -/
def terminate {σ : Type*} (out : OutFct σ) (maxlen : UInt64) (text : List UInt8) (s : σ) : σ :=
  let idx := UInt64.ofNat text.length
  out 0 (if idx < maxlen then idx else maxlen - 1) (send out text (0, s)).2

theorem vsnprintf_spell {ps : List Piece} (hps : ∀ p ∈ ps, p.WellFormed) (maxlen : UInt64) (va : List (Arg δ))
    (s : σ) :
    vsnprintf floats mem out maxlen (spell ps ++ [0]) va s =
      (render floats mem ps va).map fun text => (toInt32 text.length, terminate out maxlen text s) := by
  rw [vsnprintf, vsnprintfLoop_spell hps (by simp), Option.map_map]
  refine Option.map_congr fun text _ => ?_
  dsimp only [Function.comp]
  have hidx : (send out text (0, s)).1 = UInt64.ofNat text.length := (send_fst _).trans (UInt64.zero_add _)
  rw [hidx]
  exact congrArg (Prod.mk · (terminate out maxlen text s)) (toInt32_ofNat _)

/-- A call stays inside its format, its strings and its arguments exactly if the format is a sequence
of characters and directives that have their arguments. Then the receiver is handed the text and a terminator. -/
theorem vsnprintf_iff {format : List UInt8} (hformat : 0 ∉ format) (maxlen : UInt64) (va : List (Arg δ)) (s : σ)
    (r : Int × σ) : vsnprintf floats mem out maxlen (format ++ [0]) va s = some r ↔
      ∃ ps text, (∀ p ∈ ps, p.WellFormed) ∧ spell ps = format ∧ render floats mem ps va = some text ∧
        r = (toInt32 text.length, terminate out maxlen text s) := by
  constructor
  · intro h
    obtain ⟨dest, hloop, -⟩ := Option.map_eq_some_iff.mp h
    obtain ⟨ps, hps, rfl⟩ := exists_spell hformat hloop
    rw [vsnprintf_spell hps] at h
    obtain ⟨text, htext, rfl⟩ := Option.map_eq_some_iff.mp h
    exact ⟨ps, text, hps, rfl, htext, rfl⟩
  · rintro ⟨ps, text, hps, rfl, htext, rfl⟩
    rw [vsnprintf_spell hps, htext]
    rfl

end formats

/-- No conversions of floating point. -/
def noFloats : FloatOutput Unit := ⟨fun _ _ _ _ => [], fun _ _ _ _ => []⟩

/-- The format `n=%4d`. -/
def widthFormat : List Piece :=
  [.char 'n'.toUInt8, .char '='.toUInt8, .directive ⟨[], .digits ['4'.toUInt8], none, .absent, 'd'.toUInt8⟩]

theorem vsnprintf_iff_width :
    vsnprintf noFloats (fun _ => []) (outFct fun c s => s ++ [c]) (-1) ("n=%4d".toUTF8.toList ++ [0]) [.word 42] [] =
      some (6, "n=  42".toUTF8.toList) :=
  (vsnprintf_iff (by decide +kernel) _ _ _ _).mpr
    ⟨widthFormat, "n=  42".toUTF8.toList, by decide +kernel, by decide +kernel, by decide +kernel, by decide +kernel⟩

end Lucix.Printk
