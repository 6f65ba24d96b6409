import Lucix.Emission
import Lucix.Word

/-! `_vsnprintf` of `kernel/printk.c` and its callers. The receiver of the characters stands behind an
output function that is told the index of each; `none` is what C leaves undefined: a read
outside the bytes of a string, a missing argument or one of another type, a signed overflow. The
conversions of floating point are a parameter. -/
namespace Lucix.Printk

/-! ### Output functions -/

/-- `out_fct_type` for a fixed `maxlen`: the character, its index and the buffer. -/
abbrev OutFct (σ : Type*) := UInt8 → UInt64 → σ → σ

def outBuffer (maxlen : UInt64) : OutFct (Nat → UInt8) :=
  fun character idx => Emission.store maxlen.toNat character idx.toNat

def outNull {σ : Type*} : OutFct σ := fun _ _ buffer => buffer

def outChar {σ : Type*} (putchar : UInt8 → σ → σ) : OutFct σ :=
  fun character _ s => if character ≠ 0 then putchar character s else s

def outFct {σ : Type*} (fct : UInt8 → σ → σ) : OutFct σ :=
  fun character _ s => if character ≠ 0 then fct character s else s

section out
variable {σ : Type*} (out : OutFct σ)

/-- `out(c, buffer, idx++, maxlen)`. -/
def put (c : UInt8) (d : UInt64 × σ) : UInt64 × σ := (d.1 + 1, out c d.1 d.2)

def putTimes (c : UInt8) : Nat → UInt64 × σ → UInt64 × σ
  | 0, d => d
  | n + 1, d => putTimes c n (put out c d)

def putAll : List UInt8 → UInt64 × σ → UInt64 × σ
  | [], d => d
  | c :: cs, d => putAll cs (put out c d)

/-- The loop `while (idx - start_idx < width) out(' ', …)`, of at most `width` iterations. -/
def padTo (start : UInt64) (width : Nat) : Nat → UInt64 × σ → UInt64 × σ
  | 0, d => d
  | fuel + 1, d => if (d.1 - start).toNat < width then padTo start width fuel (put out ' '.toUInt8 d) else d

end out

/-! ### Integers -/

structure Flags where
  zeropad : Bool := false
  left : Bool := false
  plus : Bool := false
  space : Bool := false
  hash : Bool := false
  uppercase : Bool := false
  char : Bool := false
  short : Bool := false
  long : Bool := false
  longLong : Bool := false
  precision : Bool := false
  adaptExp : Bool := false
  deriving DecidableEq, Repr

def ntoaBufferSize : Nat := 32

/-- `buf[len++] = c` behind a test of `len`. -/
def push (buf : List UInt8) (c : UInt8) : List UInt8 := if buf.length < ntoaBufferSize then buf ++ [c] else buf

/-- `while ((len < bound) && (len < PRINTF_NTOA_BUFFER_SIZE)) buf[len++] = '0'`. -/
def fillZeros (buf : List UInt8) (bound : Nat) : List UInt8 :=
  buf ++ List.replicate (min bound ntoaBufferSize - buf.length) '0'.toUInt8

/-- The leading zeros, and the width that is left for `_out_rev`. -/
def padLeadingZeros (buf : List UInt8) (negative : Bool) (prec width : Nat) (flags : Flags) : List UInt8 × Nat :=
  if flags.left then (buf, width)
  else
    let width :=
      if width ≠ 0 ∧ flags.zeropad ∧ (negative ∨ flags.plus ∨ flags.space) then width - 1 else width
    let buf := fillZeros buf prec
    (if flags.zeropad then fillZeros buf width else buf, width)

/-- Zeros of the padding make room for the prefix, where the number just fills the field. -/
def dropForHash (buf : List UInt8) (base prec width : Nat) (flags : Flags) : List UInt8 :=
  if flags.precision = false ∧ buf.length ≠ 0 ∧ (buf.length = prec ∨ buf.length = width) then
    let buf := buf.dropLast
    if buf.length ≠ 0 ∧ base = 16 then buf.dropLast else buf
  else buf

def appendBaseLetter (buf : List UInt8) (base : Nat) (flags : Flags) : List UInt8 :=
  if base = 16 ∧ flags.uppercase = false ∧ buf.length < ntoaBufferSize then buf ++ ['x'.toUInt8]
  else if base = 16 ∧ flags.uppercase ∧ buf.length < ntoaBufferSize then buf ++ ['X'.toUInt8]
  else if base = 2 ∧ buf.length < ntoaBufferSize then buf ++ ['b'.toUInt8]
  else buf

def handleHash (buf : List UInt8) (base prec width : Nat) (flags : Flags) : List UInt8 :=
  if flags.hash then push (appendBaseLetter (dropForHash buf base prec width flags) base flags) '0'.toUInt8 else buf

def appendSign (buf : List UInt8) (negative : Bool) (flags : Flags) : List UInt8 :=
  if negative then push buf '-'.toUInt8
  else if flags.plus then push buf '+'.toUInt8
  else if flags.space then push buf ' '.toUInt8
  else buf

def digitChar (upper : Bool) (digit : Nat) : UInt8 :=
  if digit < 10 then '0'.toUInt8 + UInt8.ofNat digit
  else (if upper then 'A'.toUInt8 else 'a'.toUInt8) + UInt8.ofNat digit - 10

/-- The loop `do { … } while (value && (len < PRINTF_NTOA_BUFFER_SIZE))`, with the room that is left. -/
def ntoaLoop (base : Nat) (upper : Bool) : Nat → Nat → List UInt8 → List UInt8
  | 0, _, buf => buf
  | room + 1, value, buf =>
      let buf := buf ++ [digitChar upper (value % base)]
      if value / base ≠ 0 then ntoaLoop base upper room (value / base) buf else buf

section numbers
variable {σ : Type*} (out : OutFct σ)

def outRev (buf : List UInt8) (width : Nat) (flags : Flags) (d : UInt64 × σ) : UInt64 × σ :=
  let start := d.1
  let d :=
    if flags.left = false ∧ flags.zeropad = false then putTimes out ' '.toUInt8 (width - buf.length) d else d
  let d := putAll out buf.reverse d
  if flags.left then padTo out start width width d else d

def ntoaFormat (buf : List UInt8) (negative : Bool) (base prec width : Nat) (flags : Flags) (d : UInt64 × σ) :
    UInt64 × σ :=
  let (buf, width) := padLeadingZeros buf negative prec width flags
  let buf := handleHash buf base prec width flags
  outRev out (appendSign buf negative flags) width flags d

/-- The functions `_ntoa_long` and `_ntoa_long_long`: both types have 64 bits. -/
def ntoaLong (value : Nat) (negative : Bool) (base prec width : Nat) (flags : Flags) (d : UInt64 × σ) :
    UInt64 × σ :=
  let flags := if value = 0 then { flags with hash := false } else flags
  let buf :=
    if flags.precision = false ∨ value ≠ 0 then ntoaLoop base flags.uppercase ntoaBufferSize value [] else []
  ntoaFormat out buf negative base prec width flags d

end numbers

/-! ### Arguments -/

/-- An argument: a 64-bit word or a floating point value. -/
inductive Arg (δ : Type*) where
  | word (v : UInt64)
  | double (x : δ)
  deriving DecidableEq, Repr

/-- The characters that `_ftoa` and `_etoa` send for a value, its precision, width and flags. -/
structure FloatOutput (δ : Type*) where
  ftoa : δ → Nat → Nat → Flags → List UInt8
  etoa : δ → Nat → Nat → Flags → List UInt8

section args
variable {δ : Type*}

def vaWord : List (Arg δ) → Option (Nat × List (Arg δ))
  | .word v :: va => some (v.toNat, va)
  | _ => none

def vaDouble : List (Arg δ) → Option (δ × List (Arg δ))
  | .double x :: va => some (x, va)
  | _ => none

/-- `va_arg(va, int)`. -/
def vaInt (va : List (Arg δ)) : Option (Int × List (Arg δ)) := (vaWord va).map fun (v, va) => (toInt32 v, va)

/-- `0 - value` of a signed type of so many bits. -/
def magnitude (bits : Nat) (value : Int) : Option Nat :=
  if value = -2 ^ (bits - 1) then none else some value.natAbs

/-- The value that is converted, and whether it is negative. -/
def readInteger (spec : UInt8) (flags : Flags) (va : List (Arg δ)) : Option (Nat × Bool × List (Arg δ)) :=
  (vaWord va).bind fun (v, va) =>
    if spec = 'i'.toUInt8 ∨ spec = 'd'.toUInt8 then
      if flags.longLong ∨ flags.long then
        (magnitude 64 (toInt64 v)).map fun m => (m, decide (toInt64 v < 0), va)
      else
        let value :=
          if flags.char then charValue (UInt8.ofNat v) else if flags.short then Int.bmod v (2 ^ 16) else toInt32 v
        (magnitude 32 value).map fun m => (m, decide (value < 0), va)
    else if flags.longLong ∨ flags.long then some (v, false, va)
    else some (if flags.char then v % 2 ^ 8 else if flags.short then v % 2 ^ 16 else v % 2 ^ 32, false, va)

end args

/-! ### The format -/

def isDigit (ch : UInt8) : Bool := '0'.toUInt8 ≤ ch && ch ≤ '9'.toUInt8

/-- The loop of `_atoi`, with the value so far. -/
def atoiLoop : List UInt8 → Nat → Option (Nat × List UInt8)
  | [], _ => none
  | c :: str, i =>
      if isDigit c then atoiLoop str ((i * 10 + (c.toNat - '0'.toUInt8.toNat)) % 2 ^ 32) else some (i, c :: str)

def atoi (str : List UInt8) : Option (Nat × List UInt8) := atoiLoop str 0

def setFlag (c : UInt8) (flags : Flags) : Option Flags :=
  if c = '0'.toUInt8 then some { flags with zeropad := true }
  else if c = '-'.toUInt8 then some { flags with left := true }
  else if c = '+'.toUInt8 then some { flags with plus := true }
  else if c = ' '.toUInt8 then some { flags with space := true }
  else if c = '#'.toUInt8 then some { flags with hash := true }
  else none

def evalFlags : List UInt8 → Flags → Option (Flags × List UInt8)
  | [], _ => none
  | c :: format, flags =>
      match setFlag c flags with
      | some flags => evalFlags format flags
      | none => some (flags, c :: format)

section fields
variable {δ : Type*}

/-- The width field: the flags, the width, the rest of the format and of the arguments. -/
def evalWidth (flags : Flags) (format : List UInt8) (va : List (Arg δ)) :
    Option (Flags × Nat × List UInt8 × List (Arg δ)) :=
  match format with
  | [] => none
  | c :: rest =>
      if isDigit c then (atoi (c :: rest)).map fun (width, format) => (flags, width, format, va)
      else if c = '*'.toUInt8 then
        (vaInt va).bind fun (w, va) =>
          if w < 0 then (magnitude 32 w).map fun width => ({ flags with left := true }, width, rest, va)
          else some (flags, w.toNat, rest, va)
      else some (flags, 0, c :: rest, va)

def evalPrecision (flags : Flags) (format : List UInt8) (va : List (Arg δ)) :
    Option (Flags × Nat × List UInt8 × List (Arg δ)) :=
  match format with
  | [] => none
  | c :: rest =>
      if c = '.'.toUInt8 then
        let flags := { flags with precision := true }
        match rest with
        | [] => none
        | c :: rest =>
            if isDigit c then (atoi (c :: rest)).map fun (precision, format) => (flags, precision, format, va)
            else if c = '*'.toUInt8 then
              (vaInt va).map fun (prec, va) => (flags, if 0 < prec then prec.toNat else 0, rest, va)
            else some (flags, 0, c :: rest, va)
      else some (flags, 0, c :: rest, va)

/-- The length field. A `ptrdiff_t`, an `intmax_t` and a `size_t` are as wide as a `long`. -/
def evalLength (flags : Flags) : List UInt8 → Option (Flags × List UInt8)
  | [] => none
  | c :: format =>
      if c = 'l'.toUInt8 then
        match format with
        | [] => none
        | c :: format =>
            if c = 'l'.toUInt8 then some ({ flags with long := true, longLong := true }, format)
            else some ({ flags with long := true }, c :: format)
      else if c = 'h'.toUInt8 then
        match format with
        | [] => none
        | c :: format =>
            if c = 'h'.toUInt8 then some ({ flags with short := true, char := true }, format)
            else some ({ flags with short := true }, c :: format)
      else if c = 't'.toUInt8 ∨ c = 'j'.toUInt8 ∨ c = 'z'.toUInt8 then some ({ flags with long := true }, format)
      else some (flags, c :: format)

end fields

/-! ### Specifiers -/

/-- The length of the string, at most `maxsize`; its byte at `maxsize` is read as well. -/
def strnlenS : List UInt8 → Nat → Option Nat
  | [], _ => none
  | c :: str, maxsize =>
      if c ≠ 0 ∧ maxsize ≠ 0 then (strnlenS str (maxsize - 1)).map (· + 1) else some 0

def isInteger (spec : UInt8) : Bool :=
  spec = 'd'.toUInt8 || spec = 'i'.toUInt8 || spec = 'u'.toUInt8 || spec = 'x'.toUInt8 || spec = 'X'.toUInt8
    || spec = 'o'.toUInt8 || spec = 'b'.toUInt8

def specBase (spec : UInt8) : Nat :=
  if spec = 'x'.toUInt8 ∨ spec = 'X'.toUInt8 then 16
  else if spec = 'o'.toUInt8 then 8
  else if spec = 'b'.toUInt8 then 2
  else 10

/-- The flags that a conversion of an integer ignores or adds. -/
def integerFlags (spec : UInt8) (flags : Flags) : Flags :=
  let flags := if specBase spec = 10 then { flags with hash := false } else flags
  let flags := if spec = 'X'.toUInt8 then { flags with uppercase := true } else flags
  let flags :=
    if spec ≠ 'i'.toUInt8 ∧ spec ≠ 'd'.toUInt8 then { flags with plus := false, space := false } else flags
  if flags.precision then { flags with zeropad := false } else flags

section directives
variable {δ σ : Type*} (floats : FloatOutput δ) (mem : Nat → List UInt8) (out : OutFct σ)

/-- `while ((*p != 0) && (!(flags & FLAGS_PRECISION) || precision--)) out(*(p++), …)`. -/
def putString (limited : Bool) : List UInt8 → Nat → UInt64 × σ → Option (UInt64 × σ)
  | [], _, _ => none
  | c :: p, precision, d =>
      if c ≠ 0 ∧ (limited = false ∨ precision ≠ 0) then putString limited p (precision - 1) (put out c d)
      else some d

/-- The specifier `s` for the bytes that are readable at the pointer. -/
def stringDirective (p : List UInt8) (flags : Flags) (width precision : Nat) (d : UInt64 × σ) :
    Option (UInt64 × σ) :=
  (strnlenS p (if precision ≠ 0 then precision else 2 ^ 64 - 1)).bind fun len =>
    let l := len % 2 ^ 32
    let l := if flags.precision then (if l < precision then l else precision) else l
    let d := if flags.left = false then putTimes out ' '.toUInt8 (width - l) d else d
    (putString out flags.precision p precision d).map fun d =>
      if flags.left then putTimes out ' '.toUInt8 (width - l) d else d

/-- The switch over the specifier. -/
def evalSpecifier (spec : UInt8) (flags : Flags) (width precision : Nat) (va : List (Arg δ)) (d : UInt64 × σ) :
    Option (List (Arg δ) × UInt64 × σ) :=
  if isInteger spec then
    let flags := integerFlags spec flags
    (readInteger spec flags va).map fun (value, negative, va) =>
      (va, ntoaLong out value negative (specBase spec) precision width flags d)
  else if spec = 'f'.toUInt8 ∨ spec = 'F'.toUInt8 then
    let flags := if spec = 'F'.toUInt8 then { flags with uppercase := true } else flags
    (vaDouble va).map fun (x, va) => (va, putAll out (floats.ftoa x precision width flags) d)
  else if spec = 'e'.toUInt8 ∨ spec = 'E'.toUInt8 ∨ spec = 'g'.toUInt8 ∨ spec = 'G'.toUInt8 then
    let flags := if spec = 'g'.toUInt8 ∨ spec = 'G'.toUInt8 then { flags with adaptExp := true } else flags
    let flags := if spec = 'E'.toUInt8 ∨ spec = 'G'.toUInt8 then { flags with uppercase := true } else flags
    (vaDouble va).map fun (x, va) => (va, putAll out (floats.etoa x precision width flags) d)
  else if spec = 'c'.toUInt8 then
    let d := if flags.left = false then putTimes out ' '.toUInt8 (width - 1) d else d
    (vaWord va).map fun (v, va) =>
      let d := put out (UInt8.ofNat v) d
      (va, if flags.left then putTimes out ' '.toUInt8 (width - 1) d else d)
  else if spec = 's'.toUInt8 then
    (vaWord va).bind fun (p, va) =>
      (stringDirective out (mem p) flags width precision d).map fun d => (va, d)
  else if spec = 'p'.toUInt8 then
    let flags := { flags with zeropad := true, uppercase := true }
    (vaWord va).map fun (v, va) => (va, ntoaLong out v false 16 precision 16 flags d)
  else if spec = '%'.toUInt8 then some (va, put out '%'.toUInt8 d)
  else some (va, put out spec d)

/-- A directive, behind its `%`: the rest of the format, of the arguments, and the receiver. -/
def directive (format : List UInt8) (va : List (Arg δ)) (d : UInt64 × σ) :
    Option (List UInt8 × List (Arg δ) × UInt64 × σ) :=
  (evalFlags format {}).bind fun (flags, format) =>
    (evalWidth flags format va).bind fun (flags, width, format, va) =>
      (evalPrecision flags format va).bind fun (flags, precision, format, va) =>
        (evalLength flags format).bind fun (flags, format) =>
          match format with
          | [] => none
          | spec :: format =>
              (evalSpecifier floats mem out spec flags width precision va d).map fun r => (format, r)

/-- The loop `while (*format)`, of at most so many iterations. -/
def vsnprintfLoop : Nat → List UInt8 → List (Arg δ) → UInt64 × σ → Option (UInt64 × σ)
  | 0, _, _, _ => none
  | _ + 1, [], _, _ => none
  | fuel + 1, c :: format, va, d =>
      if c = 0 then some d
      else if c ≠ '%'.toUInt8 then vsnprintfLoop fuel format va (put out c d)
      else (directive floats mem out format va d).bind fun (format, va, d) => vsnprintfLoop fuel format va d

/-- The function `_vsnprintf` behind its test of `buffer`: what it returns, and the receiver. -/
def vsnprintf (maxlen : UInt64) (format : List UInt8) (va : List (Arg δ)) (buffer : σ) : Option (Int × σ) :=
  (vsnprintfLoop floats mem out (format.length + 1) format va (0, buffer)).map fun (idx, buffer) =>
    (toInt32 idx.toNat, out 0 (if idx < maxlen then idx else maxlen - 1) buffer)

end directives

/-! ### Callers -/

section callers
variable {δ σ : Type*} (floats : FloatOutput δ) (mem : Nat → List UInt8)

/-- The functions `snprintf_` and `vsnprintf_`; the buffer is `none` for a null pointer. -/
def snprintf (buffer : Option (Nat → UInt8)) (count : UInt64) (format : List UInt8) (va : List (Arg δ)) :
    Option (Int × Option (Nat → UInt8)) :=
  match buffer with
  | some buffer =>
      (vsnprintf floats mem (outBuffer count) count format va buffer).map fun (n, buffer) => (n, some buffer)
  | none => (vsnprintf floats mem outNull count format va ()).map fun (n, _) => (n, none)

def sprintf (buffer : Nat → UInt8) (format : List UInt8) (va : List (Arg δ)) : Option (Int × (Nat → UInt8)) :=
  vsnprintf floats mem (outBuffer (-1)) (-1) format va buffer

/-- The functions `printf_` and `vprintf_`, whose `_putchar` is `console_putchar`. -/
def printf (putchar : UInt8 → σ → σ) (format : List UInt8) (va : List (Arg δ)) (s : σ) : Option (Int × σ) :=
  vsnprintf floats mem (outChar putchar) (-1) format va s

def fctprintf (fct : UInt8 → σ → σ) (format : List UInt8) (va : List (Arg δ)) (arg : σ) : Option (Int × σ) :=
  vsnprintf floats mem (outFct fct) (-1) format va arg

end callers
end Lucix.Printk
