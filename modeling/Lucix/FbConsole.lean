import Lucix.Execution
import Lucix.Word

/-!
# The framebuffer console, `drivers/video/efi_fb_console/efi_fb_console.c`

The text buffer and the memory from the font on are functions from offsets to bytes. A state
records the offsets of the text buffer that have been accessed, the pixels that have been
written and the offsets from the font that have been read, so that what lies outside shows.
`int` values are integers; where the source mixes them with `uint32_t` values the conversions are
written out.
-/
namespace Lucix.FbConsole
open Execution

/-! ### The console -/

/-- The struct `framebuffer_data`, as far as the console reads it. -/
structure Framebuffer where
  width : Nat
  height : Nat
  pitch : Nat
  deriving DecidableEq, Repr

/-- The fields `headersize`, `height` and `width` of `console_font`. -/
def fontHeaderSize : Nat := 32
def fontHeight : Nat := 16
def fontWidth : Nat := 8

/-- The length of `console_font`. -/
def consoleFontLen : Nat := 4969

/-- What `initialize` sets once and for all, and the bytes from the font on. -/
structure Screen where
  rows : Nat
  cols : Nat
  fbPitch : Nat
  font : Nat → UInt8

/-- A store of a color, at its byte offset from `fb_address`. -/
structure Pixel where
  offset : Int
  color : Nat
  deriving DecidableEq, Repr

structure Console where
  cursorX : Int
  cursorY : Int
  buffer : Int → UInt8
  accessed : List Int
  pixels : List Pixel
  fontReads : List Nat

/-- The console that `initialize` sets up, over what the buffer's object held before. -/
def initializeConsole (fb : Framebuffer) (font : Nat → UInt8) : Screen :=
  ⟨fb.height / fontHeight, fb.width / fontWidth, fb.pitch, font⟩

def Console.start (buffer : Int → UInt8) : Console := ⟨0, 0, buffer, [], [], []⟩

section draw
variable (scr : Screen)

def fbDrawPixel (x y : Int) (color : Nat) : Pixel :=
  let yIndex := scr.fbPitch * y % 2 ^ 32
  ⟨(yIndex + x * 4) % 2 ^ 64, color⟩

/-- Where row `i` of the glyph of a character is read. The offset of a glyph is unsigned, so the
glyphs of negative characters are read behind the font. -/
def glyphByte (c : UInt8) (i : Nat) : Nat :=
  let charOffset := (charValue c * (fontWidth / 8 * fontHeight : Nat) % 2 ^ 32).toNat
  fontHeaderSize + charOffset + i

def glyphReads (c : UInt8) : List Nat := (List.range fontHeight).map (glyphByte c)

/-- The pixels of a character, top row first. -/
def fbDrawChar (x y : Int) (c : UInt8) (fg bg : Nat) : List Pixel :=
  let pixelX := Int.bmod (x * fontWidth) (2 ^ 32)
  let pixelY := Int.bmod (y * fontHeight) (2 ^ 32)
  (List.range fontHeight).flatMap fun i =>
    let currRow := scr.font (glyphByte c i)
    (List.range fontWidth).map fun (k : Nat) =>
      fbDrawPixel scr (pixelX + k) (pixelY + i) (if 0x80 &&& (currRow <<< UInt8.ofNat k) ≠ 0 then fg else bg)

/-- The offset of a cell in the text buffer. -/
def cell (x y : Int) : Int := y * scr.cols + x

def efiFbWriteBuff (s : Console) (x y : Int) (c : UInt8) : Console :=
  { s with
    buffer := Function.update s.buffer (cell scr x y) c
    accessed := s.accessed ++ [cell scr x y]
    pixels := s.pixels ++ fbDrawChar scr x y c 0xffffffff 0
    fontReads := s.fontReads ++ glyphReads c }

/-- The cells in the order of the two loops of `__efi_fb_redraw`. -/
def allCells : List (Int × Int) :=
  (List.range scr.rows).flatMap fun (y : Nat) => (List.range scr.cols).map fun (x : Nat) => ((x : Int), (y : Int))

def efiFbRedraw (s : Console) : Console :=
  { s with
    accessed := s.accessed ++ (allCells scr).map fun (x, y) => cell scr x y
    pixels := s.pixels ++ (allCells scr).flatMap fun (x, y) =>
      fbDrawChar scr x y (s.buffer (cell scr x y)) 0xffffffff 0
    fontReads := s.fontReads ++ (allCells scr).flatMap fun (x, y) => glyphReads (s.buffer (cell scr x y)) }

/-- The offsets of `n` bytes from `start` on. -/
def span (start : Int) (n : Nat) : List Int := (List.range n).map fun (i : Nat) => start + i

/-- A `memcpy` of `n` bytes within the text buffer. -/
def copyBytes (s : Console) (dst src : Int) (n : Nat) : Console :=
  { s with
    buffer := fun o => if dst ≤ o ∧ o < dst + n then s.buffer (src + (o - dst)) else s.buffer o
    accessed := s.accessed ++ (span src n ++ span dst n) }

/-- A `memset` of `n` zero bytes in the text buffer. -/
def clearBytes (s : Console) (dst : Int) (n : Nat) : Console :=
  { s with
    buffer := fun o => if dst ≤ o ∧ o < dst + n then 0 else s.buffer o
    accessed := s.accessed ++ span dst n }

/-- The loop of `__efi_fb_newline` that moves every row up by one. -/
def shiftRows (s : Console) : Console :=
  loop (fun i s => copyBytes s (i * scr.cols) ((i + 1) * scr.cols) scr.cols) (scr.rows - 1) s

def efiFbNewline (s : Console) : Console :=
  if s.cursorY + 1 < scr.rows then { s with cursorY := s.cursorY + 1 }
  else
    let s := { s with cursorY := s.cursorY + 1 }
    let s := shiftRows scr s
    -- the offset is a number of rows, not of bytes
    let s := clearBytes s (scr.rows - 1) scr.cols
    let s := efiFbRedraw scr s
    { s with cursorY := s.cursorY - 1 }

def efiFbCursorSanity (s : Console) : Console :=
  if s.cursorX ≥ scr.cols then efiFbNewline scr { s with cursorX := 0 } else s

/-- The switch of `efi_fb_console_putchar`. -/
def putSanitized (s : Console) (c : UInt8) : Console :=
  if c = 10 then
    efiFbNewline scr { efiFbWriteBuff scr s s.cursorX s.cursorY 0 with cursorX := 0 }
  else if c = 13 then { s with cursorX := 0 }
  else { efiFbWriteBuff scr s s.cursorX s.cursorY c with cursorX := s.cursorX + 1 }

def efiFbConsolePutchar (s : Console) (c : UInt8) : Console :=
  putSanitized scr (efiFbCursorSanity scr s) c

/-- A string, character by character. -/
def feed (s : Console) (str : List UInt8) : Console := str.foldl (efiFbConsolePutchar scr) s

end draw

/-! ### Accesses -/

/-- The cursor is on the screen or one past the end of its row, and nothing outside the text buffer
or the `bytes` of the framebuffer has been touched. -/
structure Inside (scr : Screen) (bytes : Int) (s : Console) : Prop where
  cursorX : 0 ≤ s.cursorX ∧ s.cursorX ≤ scr.cols
  cursorY : 0 ≤ s.cursorY ∧ s.cursorY < scr.rows
  accessed : ∀ o ∈ s.accessed, 0 ≤ o ∧ o < scr.rows * scr.cols
  pixels : ∀ p ∈ s.pixels, 0 ≤ p.offset ∧ p.offset + 4 ≤ bytes

/-- A screen whose text fits into an object and whose glyphs fit into the framebuffer. -/
structure Framed (scr : Screen) (height : Nat) : Prop where
  rows_pos : 1 ≤ scr.rows
  cols_pos : 1 ≤ scr.cols
  text : scr.rows * scr.cols ≤ 32768
  glyphRows : scr.rows * fontHeight ≤ height
  glyphCols : 4 * (scr.cols * fontWidth) ≤ scr.fbPitch

section inside
variable {scr : Screen} {height : Nat} {s : Console}

theorem cell_inside {x y : Int} (hx : 0 ≤ x ∧ x < scr.cols) (hy : 0 ≤ y ∧ y < scr.rows) :
    0 ≤ cell scr x y ∧ cell scr x y < scr.rows * scr.cols := by
  have hcols : (0 : Int) ≤ scr.cols := by omega
  have hlow : 0 ≤ y * scr.cols := Int.mul_nonneg hy.1 hcols
  have hrow : (y + 1) * scr.cols ≤ scr.rows * scr.cols := Int.mul_le_mul_of_nonneg_right (by omega) hcols
  rw [Int.add_mul, Int.one_mul] at hrow
  unfold cell
  omega

theorem span_inside {start total : Int} {n : Nat} (hstart : 0 ≤ start) (hend : start + n ≤ total) :
    ∀ o ∈ span start n, 0 ≤ o ∧ o < total := by
  intro o ho
  obtain ⟨i, hi, rfl⟩ := List.mem_map.mp ho
  have hlt := List.mem_range.mp hi
  omega

theorem Framed.bounds (h : Framed scr height) : scr.rows ≤ 32768 ∧ scr.cols ≤ 32768 := by
  have hrows := Nat.le_mul_of_pos_right scr.rows h.cols_pos
  have hcols := Nat.le_mul_of_pos_left scr.cols h.rows_pos
  have htext := h.text
  omega

/-- The offset of a pixel of the framebuffer is at most its row times the pitch and its column. -/
theorem fbDrawPixel_inside {x y : Int} {color : Nat} (hx : 0 ≤ x ∧ 4 * x + 4 ≤ scr.fbPitch)
    (hy : 0 ≤ y ∧ y < height) :
    0 ≤ (fbDrawPixel scr x y color).offset ∧ (fbDrawPixel scr x y color).offset + 4 ≤ height * scr.fbPitch := by
  have hpitch : (0 : Int) ≤ scr.fbPitch := by omega
  have hlow : 0 ≤ scr.fbPitch * y := Int.mul_nonneg hpitch hy.1
  have hrow : scr.fbPitch * (y + 1) ≤ scr.fbPitch * height := Int.mul_le_mul_of_nonneg_left (by omega) hpitch
  rw [Int.mul_add, Int.mul_one, Int.mul_comm (scr.fbPitch : Int) height] at hrow
  unfold fbDrawPixel
  dsimp only
  generalize (scr.fbPitch : Int) * y = row at *
  generalize (height : Int) * scr.fbPitch = total at *
  omega

theorem fbDrawChar_inside (hf : Framed scr height) {x y : Int} (hx : 0 ≤ x ∧ x < scr.cols)
    (hy : 0 ≤ y ∧ y < scr.rows) (c : UInt8) (fg bg : Nat) :
    ∀ p ∈ fbDrawChar scr x y c fg bg, 0 ≤ p.offset ∧ p.offset + 4 ≤ height * scr.fbPitch := by
  obtain ⟨hrows, hcols⟩ := hf.bounds
  have hheight := hf.glyphRows
  have hwidth := hf.glyphCols
  unfold fontHeight at hheight
  unfold fontWidth at hwidth
  have hpx : Int.bmod (x * fontWidth) (2 ^ 32) = x * 8 :=
    Int.bmod_eq_of_le (by unfold fontWidth; omega) (by unfold fontWidth; omega)
  have hpy : Int.bmod (y * fontHeight) (2 ^ 32) = y * 16 :=
    Int.bmod_eq_of_le (by unfold fontHeight; omega) (by unfold fontHeight; omega)
  intro p hp
  simp only [fbDrawChar, hpx, hpy, List.mem_flatMap, List.mem_map, List.mem_range] at hp
  obtain ⟨i, hi, k, hk, rfl⟩ := hp
  unfold fontHeight at hi
  unfold fontWidth at hk
  exact fbDrawPixel_inside ⟨by omega, by omega⟩ ⟨by omega, by omega⟩

theorem allCells_inside {x y : Int} (h : (x, y) ∈ allCells scr) :
    (0 ≤ x ∧ x < scr.cols) ∧ 0 ≤ y ∧ y < scr.rows := by
  simp only [allCells, List.mem_flatMap, List.mem_map, List.mem_range, Prod.mk.injEq] at h
  obtain ⟨i, hi, k, hk, rfl, rfl⟩ := h
  omega

/-- The accesses and the pixels of a state, whatever its cursor. -/
def Clean (scr : Screen) (bytes : Int) (s : Console) : Prop :=
  (∀ o ∈ s.accessed, 0 ≤ o ∧ o < scr.rows * scr.cols) ∧ ∀ p ∈ s.pixels, 0 ≤ p.offset ∧ p.offset + 4 ≤ bytes

theorem efiFbWriteBuff_clean (hf : Framed scr height) (h : Clean scr (height * scr.fbPitch) s) {x y : Int}
    (hx : 0 ≤ x ∧ x < scr.cols) (hy : 0 ≤ y ∧ y < scr.rows) (c : UInt8) :
    Clean scr (height * scr.fbPitch) (efiFbWriteBuff scr s x y c) := by
  constructor
  · intro o ho
    rcases List.mem_append.mp ho with hold | hnew
    · exact h.1 o hold
    · rw [List.mem_singleton.mp hnew]
      exact cell_inside hx hy
  · intro p hp
    rcases List.mem_append.mp hp with hold | hnew
    · exact h.2 p hold
    · exact fbDrawChar_inside hf hx hy c _ _ p hnew

theorem efiFbRedraw_clean (hf : Framed scr height) (h : Clean scr (height * scr.fbPitch) s) :
    Clean scr (height * scr.fbPitch) (efiFbRedraw scr s) := by
  constructor
  · intro o ho
    rcases List.mem_append.mp ho with hold | hnew
    · exact h.1 o hold
    · obtain ⟨at', hmem, rfl⟩ := List.mem_map.mp hnew
      obtain ⟨hx, hy⟩ := allCells_inside hmem
      exact cell_inside hx hy
  · intro p hp
    rcases List.mem_append.mp hp with hold | hnew
    · exact h.2 p hold
    · obtain ⟨at', hmem, hchar⟩ := List.mem_flatMap.mp hnew
      obtain ⟨hx, hy⟩ := allCells_inside hmem
      exact fbDrawChar_inside hf hx hy _ _ _ p hchar

theorem shiftRows_clean {bytes : Int} (h : Clean scr bytes s) : Clean scr bytes (shiftRows scr s) := by
  refine loop_invariant (fun _ t => Clean scr bytes t) h ?_
  intro i hi t ht
  refine ⟨?_, ht.2⟩
  intro o ho
  have hrow : ((i : Int) + 2) * scr.cols ≤ scr.rows * scr.cols :=
    Int.mul_le_mul_of_nonneg_right (by omega) (by omega)
  have hlow : 0 ≤ (i : Int) * scr.cols := Int.mul_nonneg (by omega) (by omega)
  rcases List.mem_append.mp ho with hold | hnew
  · exact ht.1 o hold
  rcases List.mem_append.mp hnew with hsrc | hdst
  · apply span_inside _ _ o hsrc
    · linarith
    · linarith
  · apply span_inside _ _ o hdst
    · exact hlow
    · linarith

/-- The bytes cleared start too early but end inside the buffer. -/
theorem clearBytes_clean (hf : Framed scr height) {bytes : Int} (h : Clean scr bytes s) :
    Clean scr bytes (clearBytes s (scr.rows - 1) scr.cols) := by
  refine ⟨?_, h.2⟩
  intro o ho
  rcases List.mem_append.mp ho with hold | hnew
  · exact h.1 o hold
  · have hrows := hf.rows_pos
    have hcols := hf.cols_pos
    have hproduct : 0 ≤ ((scr.rows : Int) - 1) * (scr.cols - 1) := Int.mul_nonneg (by omega) (by omega)
    apply span_inside _ _ o hnew
    · omega
    · linarith

theorem shiftRows_cursor (s : Console) :
    (shiftRows scr s).cursorX = s.cursorX ∧ (shiftRows scr s).cursorY = s.cursorY := by
  refine loop_invariant (fun _ (t : Console) => t.cursorX = s.cursorX ∧ t.cursorY = s.cursorY) ⟨rfl, rfl⟩ ?_
  intro i _ t ht
  exact ht

theorem efiFbNewline_cursor (s : Console) : (efiFbNewline scr s).cursorX = s.cursorX ∧
    (efiFbNewline scr s).cursorY = if s.cursorY + 1 < scr.rows then s.cursorY + 1 else s.cursorY := by
  unfold efiFbNewline
  split_ifs with hmore
  · exact ⟨rfl, rfl⟩
  · obtain ⟨hx, hy⟩ := @shiftRows_cursor scr { s with cursorY := s.cursorY + 1 }
    refine ⟨hx, ?_⟩
    change (shiftRows scr { s with cursorY := s.cursorY + 1 }).cursorY - 1 = s.cursorY
    rw [hy]
    exact Int.add_sub_cancel _ _

theorem efiFbNewline_clean (hf : Framed scr height) (h : Clean scr (height * scr.fbPitch) s) :
    Clean scr (height * scr.fbPitch) (efiFbNewline scr s) := by
  unfold efiFbNewline
  split_ifs
  · exact h
  · have hmoved : Clean scr (height * scr.fbPitch) { s with cursorY := s.cursorY + 1 } := h
    exact efiFbRedraw_clean hf (clearBytes_clean hf (shiftRows_clean hmoved))

theorem Inside.clean {bytes : Int} (h : Inside scr bytes s) : Clean scr bytes s := ⟨h.accessed, h.pixels⟩

theorem efiFbNewline_inside (hf : Framed scr height) (h : Inside scr (height * scr.fbPitch) s) :
    Inside scr (height * scr.fbPitch) (efiFbNewline scr s) := by
  obtain ⟨hx, hy⟩ := @efiFbNewline_cursor scr s
  have hrow := h.cursorY
  obtain ⟨haccessed, hpixels⟩ := efiFbNewline_clean hf h.clean
  refine ⟨hx ▸ h.cursorX, ?_, haccessed, hpixels⟩
  rw [hy]
  split_ifs
  · omega
  · exact hrow

theorem efiFbCursorSanity_inside (hf : Framed scr height) (h : Inside scr (height * scr.fbPitch) s) :
    Inside scr (height * scr.fbPitch) (efiFbCursorSanity scr s) ∧
      (efiFbCursorSanity scr s).cursorX < scr.cols := by
  have hcols := hf.cols_pos
  unfold efiFbCursorSanity
  split_ifs with hpast
  · have hzero : Inside scr (height * scr.fbPitch) { s with cursorX := 0 } :=
      ⟨⟨Int.le_refl 0, Int.natCast_nonneg _⟩, h.cursorY, h.accessed, h.pixels⟩
    refine ⟨efiFbNewline_inside hf hzero, ?_⟩
    rw [(efiFbNewline_cursor _).1]
    change (0 : Int) < scr.cols
    omega
  · exact ⟨h, by omega⟩

theorem putSanitized_inside (hf : Framed scr height) (h : Inside scr (height * scr.fbPitch) s)
    (hcell : s.cursorX < scr.cols) (c : UInt8) : Inside scr (height * scr.fbPitch) (putSanitized scr s c) := by
  have hwrite : ∀ c, Clean scr (height * scr.fbPitch) (efiFbWriteBuff scr s s.cursorX s.cursorY c) :=
    fun c => efiFbWriteBuff_clean hf h.clean ⟨h.cursorX.1, hcell⟩ h.cursorY c
  have hx := h.cursorX
  unfold putSanitized
  split_ifs
  · apply efiFbNewline_inside hf
    exact ⟨⟨Int.le_refl 0, Int.natCast_nonneg _⟩, h.cursorY, (hwrite 0).1, (hwrite 0).2⟩
  · exact ⟨⟨Int.le_refl 0, Int.natCast_nonneg _⟩, h.cursorY, h.accessed, h.pixels⟩
  · refine ⟨?_, h.cursorY, (hwrite c).1, (hwrite c).2⟩
    change 0 ≤ s.cursorX + 1 ∧ s.cursorX + 1 ≤ scr.cols
    omega

theorem putchar_inside (hf : Framed scr height) (h : Inside scr (height * scr.fbPitch) s) (c : UInt8) :
    Inside scr (height * scr.fbPitch) (efiFbConsolePutchar scr s c) := by
  obtain ⟨hsane, hcell⟩ := efiFbCursorSanity_inside hf h
  exact putSanitized_inside hf hsane hcell c

theorem feed_inside (hf : Framed scr height) (h : Inside scr (height * scr.fbPitch) s) (str : List UInt8) :
    Inside scr (height * scr.fbPitch) (feed scr s str) :=
  List.foldlRecOn str _ h fun _ ht c _ => putchar_inside hf ht c

end inside

theorem initializeConsole_framed {fb : Framebuffer} (font : Nat → UInt8) (hpitch : 4 * fb.width ≤ fb.pitch)
    (hrows : 1 ≤ (initializeConsole fb font).rows) (hcols : 1 ≤ (initializeConsole fb font).cols)
    (htext : (initializeConsole fb font).rows * (initializeConsole fb font).cols ≤ 32768) :
    Framed (initializeConsole fb font) fb.height := by
  refine ⟨hrows, hcols, htext, Nat.div_mul_le_self _ _, ?_⟩
  have hwidth : fb.width / fontWidth * fontWidth ≤ fb.width := Nat.div_mul_le_self _ _
  exact (Nat.mul_le_mul_left 4 hwidth).trans hpitch

/-- Whatever is fed to the console, the cursor stays on the screen or one past the end of its row,
and every access to the text buffer and every pixel written is inside. -/
theorem console_accesses_inside (fb : Framebuffer) (font : Nat → UInt8) (buffer : Int → UInt8) (str : List UInt8)
    (hpitch : 4 * fb.width ≤ fb.pitch) (hrows : 1 ≤ (initializeConsole fb font).rows)
    (hcols : 1 ≤ (initializeConsole fb font).cols)
    (htext : (initializeConsole fb font).rows * (initializeConsole fb font).cols ≤ 32768) {s : Console}
    (hs : s = feed (initializeConsole fb font) (Console.start buffer) str) :
    (0 ≤ s.cursorX ∧ s.cursorX ≤ (initializeConsole fb font).cols) ∧
    (0 ≤ s.cursorY ∧ s.cursorY < (initializeConsole fb font).rows) ∧
    (∀ o ∈ s.accessed, 0 ≤ o ∧ o < (initializeConsole fb font).rows * (initializeConsole fb font).cols) ∧
    ∀ p ∈ s.pixels, 0 ≤ p.offset ∧ p.offset + 3 < fb.height * fb.pitch := by
  have hf := initializeConsole_framed font hpitch hrows hcols htext
  have hstart : Inside (initializeConsole fb font) (fb.height * fb.pitch) (Console.start buffer) :=
    ⟨⟨Int.le_refl 0, Int.natCast_nonneg _⟩, ⟨Int.le_refl 0, Int.natCast_pos.mpr hrows⟩,
      by simp [Console.start], by simp [Console.start]⟩
  have hinside := feed_inside hf hstart str
  rw [← hs] at hinside
  refine ⟨hinside.cursorX, hinside.cursorY, hinside.accessed, fun p hp => ?_⟩
  obtain ⟨hlow, hhigh⟩ := hinside.pixels p hp
  change p.offset + 4 ≤ fb.height * fb.pitch at hhigh
  exact ⟨hlow, by omega⟩

/-- Two rows of two characters. -/
def smallFramebuffer : Framebuffer := ⟨16, 32, 64⟩

theorem console_accesses_inside_small :
    (feed (initializeConsole smallFramebuffer fun _ => 0) (Console.start fun _ => 0) [97, 10, 98, 99, 100]).cursorX = 1 ∧
      (feed (initializeConsole smallFramebuffer fun _ => 0) (Console.start fun _ => 0) [97, 10, 98, 99, 100]).cursorX ≤ 2 :=
  ⟨by decide +kernel, (console_accesses_inside smallFramebuffer (fun _ => 0) (fun _ => 0) [97, 10, 98, 99, 100]
    (by decide) (by decide) (by decide) (by decide) rfl).1.2⟩

end Lucix.FbConsole
